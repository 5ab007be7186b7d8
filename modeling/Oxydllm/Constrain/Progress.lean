/-
# Oxydllm.Constrain.Progress — constrained decoding never gets stuck under a live root.

A run stops somewhere inside a document. What it has written of the innermost value is completed to a
value the guide takes, one case for each state of the automaton; then every open container is closed,
by induction on the context; the rest of the resulting document is a run of single-byte tokens.
-/
import Oxydllm.Constrain.Live

namespace Oxydllm.Constrain

open JsonText GuideState

section

variable {arena : SchemaArena} {ok : UInt8 → Prop} {mode : JsonMode}

/-! ## The context of a run leaves room for a value -/

theorem Opened.itemsBefore (hwf : arena.Wf) {k : Nat} {g g' : GuideState} {p : List UInt8}
    (h : Opened arena ok 0x5B k g) (hp : ItemsBefore arena k g p g') : Opened arena ok 0x5B k g' := by
  cases hp with
  | nil => exact h
  | comma items hall hd hg =>
      have hmax := h.count
      simp only [maxDepth] at hd
      exact h.keeps (itemsGuide_keeps items (by omega) hg).keeps (itemsGuide_val hwf items hg)

theorem Opened.members (hwf : arena.Wf) {k : Nat} {g g' : GuideState} {members : Members}
    (h : Opened arena ok 0x7B k g) (hd : members.depth + k ≤ maxDepth)
    (hg : membersGuide arena arena.root members g = some g') : Opened arena ok 0x7B k g' := by
  have hmax := h.count
  simp only [maxDepth] at hd
  exact h.keeps (membersGuide_keeps members (by omega) hg) (membersGuide_val hwf members hg)

theorem Opened.membersBefore (hwf : arena.Wf) {k : Nat} {g g' : GuideState} {p : List UInt8}
    (h : Opened arena ok 0x7B k g) (hp : MembersBefore arena k g p g') : Opened arena ok 0x7B k g' := by
  cases hp with
  | nil => exact h
  | comma members hall hd hg hkey => exact h.members hwf hd hg

theorem room_of_context (hwf : arena.Wf) (hlive : Live arena ok guidedDepth arena.root) {fs : List Bool}
    {w : List UInt8} {g : GuideState} (h : Context arena mode fs w g) : Room arena ok fs.length g := by
  induction h with
  | top gap hgap => exact ⟨rfl, rfl, by simp [GuideState.new], fun _ => hlive⟩
  | arr h htop hd he hp gap hgap ih =>
      exact ((ih.enter hwf (.inr rfl) hd he).itemsBefore hwf hp).item hwf
  | obj h hd he hp gap₁ key gap₂ gap₃ hgap₁ hkey hgap₂ hgap₃ hk ih =>
      exact ((ih.enter hwf (.inl rfl) hd he).membersBefore hwf hp).value hwf hkey hk

/-! ## Closing what is open -/

/-- A document that starts with `w` and goes on with `ok` bytes, read by automaton and guide. -/
structure Ending (arena : SchemaArena) (ok : UInt8 → Prop) (mode : JsonMode) (w : List UInt8) (t : Text)
    (s : List UInt8) : Prop where
  print_eq : t.print = w ++ s
  ok_bytes : ∀ b ∈ s, ok b
  all : t.All readable
  depth : t.value.depth ≤ maxDepth
  root : mode = .object → t.value.isObject
  takes : ∃ g, valueGuide arena arena.root t.value .new = some g

theorem Ending.append {w s₁ s₂ : List UInt8} {t : Text} (h : Ending arena ok mode (w ++ s₁) t s₂)
    (hs : ∀ b ∈ s₁, ok b) : Ending arena ok mode w t (s₁ ++ s₂) := by
  obtain ⟨hprint, hok, hall, hdepth, hroot, htakes⟩ := h
  refine ⟨by rw [hprint, List.append_assoc], ?_, hall, hdepth, hroot, htakes⟩
  intro b hb
  rcases List.mem_append.1 hb with hb | hb
  · exact hs b hb
  · exact hok b hb

/-- A value taken in a context, with the gap behind it, can be completed to a document. -/
theorem context_ending (hwf : arena.Wf) (hok : ∀ b, isSpace b = false → ok b)
    (hlive : Live arena ok guidedDepth arena.root) {fs : List Bool} {w : List UInt8} {g : GuideState}
    (h : Context arena mode fs w g) {v : Value} {gap : Gap} {g' : GuideState} (hroot : RootOk mode fs v)
    (hall : v.All readable) (hgap : readable.gap v.isNum gap) (hd : v.depth + fs.length ≤ maxDepth)
    (htakes : valueGuide arena arena.root v g = some g') :
    ∃ t s, Ending arena ok mode (w ++ (v.print ++ gap.bytes)) t s := by
  induction h generalizing v gap g' with
  | top gap₀ hgap₀ =>
      refine ⟨⟨gap₀, v, gap⟩, [], ?_, by simp, ⟨hgap₀, hall, hgap⟩, hd, fun hm => hroot hm rfl, g', htakes⟩
      simp [Text.print]
  | @arr fs w p g g₁ g₂ h htop hlen he hp gap₀ hgap₀ ih =>
      have hopen := (room_of_context hwf hlive h).enter hwf (.inr rfl) hlen he
      have hopen₂ := hopen.itemsBefore hwf hp
      have hkeeps := valueGuide_keeps v (by
        have := hopen₂.count
        simp only [maxDepth, List.length_cons] at hd
        omega) htakes
      obtain ⟨g₃, hclose⟩ := (hopen₂.keeps hkeeps.keeps (valueGuide_val hwf v htakes)).closes_array
      -- the array with this element, whatever stands before it
      have hitems : ∃ items : Items, items.print = p ++ gap₀.bytes ++ (v.print ++ gap.bytes) ∧
          items.All readable ∧ items.depth + (fs.length + 1) ≤ maxDepth ∧
          itemsGuide arena arena.root items g₁ = some g' := by
        cases hp with
        | nil => exact ⟨.one gap₀ v gap, by simp [Items.print], ⟨hgap₀, hall, hgap⟩, hd, htakes⟩
        | comma items hitems hdi hg =>
            refine ⟨.snoc items gap₀ v gap, by simp [Items.print], ⟨hitems, hgap₀, hall, hgap⟩, ?_, ?_⟩
            · simp only [Items.depth, List.length_cons] at hd ⊢
              omega
            · rw [itemsGuide, hg, Option.bind_some, htakes]
      obtain ⟨items, hprint, hitems, hdi, hguide⟩ := hitems
      have harr : valueGuide arena arena.root (.arr items) g = some g₃ := by
        rw [valueGuide, he, Option.bind_some, hguide, Option.bind_some, hclose]
      obtain ⟨t, s, ht⟩ : ∃ t s, Ending arena ok mode (w ++ ((Value.arr items).print ++ Gap.empty.bytes)) t s :=
        ih (.of_topOk htop _) hitems (gap_empty _) (by simp only [Value.depth]; omega) harr
      refine ⟨t, [0x5D] ++ s, Ending.append ?_ ?_⟩
      · simpa [Value.print, hprint, Gap.empty] using ht
      · intro b hb
        rw [List.mem_singleton.1 hb]
        exact hok _ rfl
  | @obj fs w p g g₁ g₂ g₃ h hlen he hp gap₁ key gap₂ gap₃ hgap₁ hkey hgap₂ hgap₃ hk ih =>
      have hopen := (room_of_context hwf hlive h).enter hwf (.inl rfl) hlen he
      have hopen₂ := hopen.membersBefore hwf hp
      have hkkeeps := keyGuide_keeps hk
      have hvkeeps := valueGuide_keeps v (by
        have := hopen₂.count
        rw [hkkeeps.overflow_eq]
        simp only [maxDepth, List.length_cons] at hd
        omega) htakes
      have hopen₃ := hopen₂.keeps (hkkeeps.trans hvkeeps.keeps) (valueGuide_val hwf v htakes)
      have hmembers : ∃ members : Members,
          members.print = p ++ (gap₁.bytes ++ Str.print key ++ gap₂.bytes ++ 0x3A :: gap₃.bytes) ++
            (v.print ++ gap.bytes) ∧
          members.All readable ∧ members.depth + (fs.length + 1) ≤ maxDepth ∧
          membersGuide arena arena.root members g₁ = some g' := by
        cases hp with
        | nil =>
            refine ⟨.one gap₁ key gap₂ gap₃ v gap, by simp [Members.print],
              ⟨hgap₁, hkey, hgap₂, hgap₃, hall, hgap⟩, hd, ?_⟩
            rw [membersGuide, hk, Option.bind_some, htakes]
        | comma members hmembers hdi hg havail =>
            refine ⟨.snoc members gap₁ key gap₂ gap₃ v gap, by simp [Members.print],
              ⟨hmembers, hgap₁, hkey, hgap₂, hgap₃, hall, hgap⟩, ?_, ?_⟩
            · simp only [Members.depth, List.length_cons] at hd ⊢
              omega
            · rw [membersGuide, hg, Option.bind_some, commaGuide, if_pos havail, Option.bind_some, hk,
                Option.bind_some, htakes]
      obtain ⟨members, hprint, hmembers, hdi, hguide⟩ := hmembers
      obtain ⟨members', s', g₄, hprint', hoks, hall', hd', hobj⟩ :=
        object_from_members hwf hok hlen (fun _ => suppliesAt hwf hok _) he hopen₃ hmembers hdi hguide
      obtain ⟨t, s, ht⟩ : ∃ t s, Ending arena ok mode (w ++ ((Value.obj members').print ++ Gap.empty.bytes)) t s :=
        ih (fun _ _ => rfl) hall' (gap_empty _) (by simp only [Value.depth]; omega) hobj
      refine ⟨t, (s' ++ [0x7D]) ++ s, Ending.append ?_ ?_⟩
      · simpa [Value.print, hprint', hprint, Gap.empty] using ht
      · intro b hb
        rcases List.mem_append.1 hb with hb | hb
        · exact hoks b hb
        · rw [List.mem_singleton.1 hb]
          exact hok _ rfl

/-! ## Completing the value in progress -/

/-- A value taken in a context and the bytes behind it that finish it make an ending of what has been
written of it. -/
theorem ending_of_value (hwf : arena.Wf) (hok : ∀ b, isSpace b = false → ok b)
    (hlive : Live arena ok guidedDepth arena.root) {fs : List Bool} {w p s : List UInt8} {g g' : GuideState}
    (h : Context arena mode fs w g) {v : Value} (hprint : v.print = p ++ s) (hs : ∀ b ∈ s, ok b)
    (hroot : RootOk mode fs v) (hall : v.All readable) (hd : v.depth + fs.length ≤ maxDepth)
    (htakes : valueGuide arena arena.root v g = some g') :
    ∃ t s, Ending arena ok mode (w ++ p) t s := by
  obtain ⟨t, s', ht⟩ := context_ending hwf hok hlive h hroot hall (gap_empty _) hd htakes
  refine ⟨t, s ++ s', Ending.append ?_ hs⟩
  simpa [hprint, Gap.empty] using ht

/-- A value that has been written and left. -/
theorem value_walked (hwf : arena.Wf) {fs : List Bool} {st : S} {r : Nat} {m m' : JsonMachine}
    {g g' : GuideState} {v : Value} {gap : Gap} (hst : st.Open) (hm : m.view = ⟨fs, st, r⟩)
    (hval : g.val = .free) (hlen : fs.length ≤ maxDepth) (hroot : RootOk mode fs v)
    (hleft : m'.state.isNum = false) (h : Walks arena mode m g (v.print ++ gap.bytes) m' g') :
    v.All readable ∧ readable.gap v.isNum gap ∧ v.depth + fs.length ≤ maxDepth ∧
      ∃ g₁, valueGuide arena arena.root v g = some g₁ := by
  have hpiece := (value_piece mode v fs st hst hlen r hroot).append (tailGap_piece v gap)
  have h' : Walks arena mode m g ((v.print ++ gap.bytes) ++ []) m' g' := by rwa [List.append_nil]
  obtain ⟨⟨⟨hall, hd⟩, hgap⟩, m₁, g₁, hv, hobs, hrest⟩ := walks_piece hpiece hm h'
  obtain ⟨rfl, rfl⟩ := walks_nil.1 hrest
  refine ⟨hall, hgap, hd, ?_⟩
  have hobserves : Observes arena arena.root v := observe_value hwf v
  rw [observe_append] at hobs
  obtain ⟨g₂, hg₂, hpost⟩ := Option.bind_eq_some_iff.1 hobs
  rw [← hobserves g hval, hg₂, Option.bind_some]
  cases hnum : v.isNum with
  | false => exact ⟨g₂, rfl⟩
  | true =>
      have hne : gap.bytes ≠ [] := by
        intro hnil
        rcases tailView_cases fs v gap with ⟨n, -, htail, -⟩ | ⟨-, -, hpend⟩
        · rw [htail] at hv
          have hstate : m'.state = .num n := congrArg View.state hv
          rw [hstate] at hleft
          cases hleft
        · simp [pending, hnum, hnil] at hpend
      rw [observe_gap_settle (by simp [hnum]) hne, hnum] at hpost
      exact ⟨g', hpost⟩

/-! ### Strings -/

/-- Bytes that finish an escape. -/
theorem finish_char {esc : Bool} {u : Nat} {t : List UInt8} (h : StrTail esc u t) :
    ∃ (s : Str) (x : List UInt8), Str.body s = t ++ x ∧ (∀ b ∈ x, isSpace b = false) ∧
      ∀ b ∈ t ++ x, b ≠ 0x20 := by
  cases h with
  | plain => exact ⟨[], [], rfl, by simp, by simp⟩
  | esc => exact ⟨[.esc 0x6E rfl], [0x6E], rfl, by simp [isSpace], by simp⟩
  | unicode u hs hhex hlen =>
      have hzero : isHex 0x30 := rfl
      have hne : ∀ {b : UInt8}, isHex b → b ≠ 0x20 := isHex_ne_space
      match hs, hlen, hhex with
      | [], hlen, hhex =>
          exact ⟨[.unicode 0x30 0x30 0x30 0x30 ⟨hzero, hzero, hzero, hzero⟩], [0x30, 0x30, 0x30, 0x30], rfl,
            by simp [isSpace], by simp⟩
      | [a], hlen, hhex =>
          have ha := hhex a (by simp)
          exact ⟨[.unicode a 0x30 0x30 0x30 ⟨ha, hzero, hzero, hzero⟩], [0x30, 0x30, 0x30], rfl,
            by simp [isSpace], by simp [hne ha]⟩
      | [a, b], hlen, hhex =>
          have ha := hhex a (by simp)
          have hb := hhex b (by simp)
          exact ⟨[.unicode a b 0x30 0x30 ⟨ha, hb, hzero, hzero⟩], [0x30, 0x30], rfl,
            by simp [isSpace], by simp [hne ha, hne hb]⟩
      | [a, b, c], hlen, hhex =>
          have ha := hhex a (by simp)
          have hb := hhex b (by simp)
          have hc := hhex c (by simp)
          exact ⟨[.unicode a b c 0x30 ⟨ha, hb, hc, hzero⟩], [0x30], rfl,
            by simp [isSpace], by simp [hne ha, hne hb, hne hc]⟩
      | a :: b :: c :: d :: rest, hlen, hhex => simp at hlen; omega

theorem spacesFit_of_ne {r : Nat} {w : List UInt8} (h : ∀ b ∈ w, b ≠ 0x20) : SpacesFit r w := by
  induction w generalizing r with
  | nil => trivial
  | cons b w ih =>
      have hb : b ≠ 0x20 := h b (by simp)
      have hrest : SpacesFit 0 w := ih fun c hc => h c (by simp [hc])
      simpa [SpacesFit, hb] using hrest

/-- The unfinished escape of a string. -/
theorem tail_piece {fs : List Bool} {key esc : Bool} {u r : Nat} {t : List UInt8} (h : StrTail esc u t) :
    ∃ r', Piece mode ⟨fs, .str false 0 key, r⟩ t True (t.map content) ⟨fs, .str esc u key, r'⟩ := by
  have hstep : ∀ {v v' : View} {b : UInt8}, v.state.isNum = false → Step mode v b v' {} →
      Piece mode v [b] True [content b] v' := by
    intro v v' b hn hs
    have := Piece.move hs
    rwa [hn] at this
  cases h with
  | plain => exact ⟨r, Piece.nil⟩
  | esc => exact ⟨0, hstep rfl .strEsc⟩
  | unicode u hs hhex hlen =>
      have hopen : Piece mode ⟨fs, .str false 0 key, r⟩ [0x5C, 0x75] True [content 0x5C, content 0x75]
          ⟨fs, .str false 4 key, 0⟩ :=
        ((hstep rfl .strEsc).append (hstep rfl .escUnicode)).congr (by simp)
      -- each hex digit counts down
      have hdigits : ∀ (hs : List UInt8) (n : Nat), (∀ b ∈ hs, isHex b) →
          Piece mode ⟨fs, .str false (n + hs.length) key, 0⟩ hs True (hs.map content)
            ⟨fs, .str false n key, 0⟩ := by
        intro hs
        induction hs with
        | nil => exact fun n _ => Piece.nil
        | cons b hs ih =>
            intro n hb
            have hone : Piece mode ⟨fs, .str false (n + hs.length + 1) key, 0⟩ [b] True [content b]
                ⟨fs, .str false (n + hs.length) key, 0⟩ := hstep rfl (.hex (hb b (by simp)))
            exact (hone.append (ih n fun c hc => hb c (by simp [hc]))).congr (by simp)
      have hrest := hdigits hs (u + 1) hhex
      rw [show u + 1 + hs.length = 4 by omega] at hrest
      exact ⟨0, (hopen.append hrest).congr (by simp)⟩

/-- The content of an unfinished string. -/
theorem walks_content {fs : List Bool} {key esc : Bool} {u : Nat} {t : List UInt8} {m m' : JsonMachine}
    {g g' : GuideState} {s : Str} (ht : StrTail esc u t) (hm : m.view = ⟨fs, .str false 0 key, 0⟩)
    (h : Walks arena mode m g (Str.body s ++ t) m' g') :
    readable.str s ∧ g.reads arena (Str.body s ++ t) = some g' := by
  obtain ⟨r', htail⟩ : ∃ r', Piece mode ⟨fs, .str false 0 key, spaceRun 0 (Str.body s)⟩ t True (t.map content)
      ⟨fs, .str esc u key, r'⟩ := tail_piece ht
  have hpiece := (body_piece mode fs key 0 s).append htail
  have h' : Walks arena mode m g ((Str.body s ++ t) ++ []) m' g' := by rwa [List.append_nil]
  obtain ⟨⟨hfit, -⟩, m₁, g₁, -, hobs, hrest⟩ := walks_piece hpiece hm h'
  obtain ⟨rfl, rfl⟩ := walks_nil.1 hrest
  rw [← List.map_append, observe_content] at hobs
  exact ⟨hfit, hobs⟩

/-- A string in progress, ended as soon as its escape is. -/
theorem finish_str {esc : Bool} {u : Nat} {t : List UInt8} (s : Str) (ht : StrTail esc u t)
    (hread : readable.str s) :
    ∃ (s' : Str) (x : List UInt8), Str.body s' = Str.body s ++ t ++ x ∧ (∀ b ∈ x, isSpace b = false) ∧
      readable.str s' := by
  obtain ⟨c, x, hc, hx, hne⟩ := finish_char ht
  refine ⟨s ++ c, x, by simp [Str.body, List.flatMap_append] at hc ⊢; exact hc, hx, ?_⟩
  have hbody : Str.body (s ++ c) = Str.body s ++ Str.body c := by simp [Str.body]
  show SpacesFit 0 (Str.body (s ++ c))
  rw [hbody, spacesFit_append]
  exact ⟨hread, spacesFit_of_ne (by rw [hc]; exact hne)⟩

/-! ### Reading the value in progress -/

/-- A gap that is skipped in place. -/
theorem walks_gap {fs : List Bool} {st : S} {m m' : JsonMachine} {g g' : GuideState} {w : List UInt8}
    (hst : st.gap) (hm : m.view = ⟨fs, st, 0⟩) (hg : g.val = .free) (gap : Gap)
    (h : Walks arena mode m g (gap.bytes ++ w) m' g') :
    readable.gap false gap ∧ ∃ m₁ r, m₁.view = ⟨fs, st, r⟩ ∧ Walks arena mode m₁ g w m' g' := by
  have hpiece := (gap_piece mode fs hst 0 gap.bytes gap.space).congr (gapCost_false gap)
  obtain ⟨hgap, m₁, g₁, hv, hobs, hrest⟩ := walks_piece hpiece hm h
  rw [observe_gap hg] at hobs
  cases hobs
  exact ⟨hgap, m₁, _, hv, hrest⟩

/-- The opening quotation mark of a key. -/
theorem walks_keyOpen {fs : List Bool} {st : S} {r : Nat} {m m' : JsonMachine} {g g' : GuideState}
    {w : List UInt8} (hst : st = .objFirst ∨ st = .objComma) (hm : m.view = ⟨fs, st, r⟩)
    (h : Walks arena mode m g (0x22 :: w) m' g') :
    g.hasAvailableKey arena = true ∧ ∃ m₁, m₁.view = ⟨fs, .str false 0 true, 0⟩ ∧
      Walks arena mode m₁ (g.startKey arena) w m' g' := by
  have hpiece : Piece mode ⟨fs, st, r⟩ [0x22] True [⟨0x22, { keyStart := true }, false⟩]
      ⟨fs, .str false 0 true, 0⟩ := by
    rcases hst with rfl | rfl <;> exact .move (.keyOpen (by simp))
  obtain ⟨-, m₁, g₁, hv, hobs, hrest⟩ := walks_piece hpiece hm h
  have hstart : g.onByte arena arena.root 0x22 { keyStart := true } false =
      if g.hasAvailableKey arena then some (g.startKey arena) else none := by
    simp [onByte]
  rw [observe_one, hstart] at hobs
  obtain ⟨havail, heq⟩ := Option.ite_none_right_eq_some.1 hobs
  obtain rfl := Option.some.inj heq
  exact ⟨havail, m₁, hv, hrest⟩

/-- The first byte of a scalar. -/
theorem walks_start {fs : List Bool} {st st' : S} {r : Nat} {m m' : JsonMachine} {g g' : GuideState}
    {b : UInt8} {w : List UInt8} (hst : st.Open)
    (hstep : Step mode ⟨fs, st, r⟩ b ⟨fs, st', 0⟩ { valueStart := true }) (hm : m.view = ⟨fs, st, r⟩)
    (h : Walks arena mode m g (b :: w) m' g') :
    ∃ m₁ g₁, m₁.view = ⟨fs, st', 0⟩ ∧ g.enter arena arena.root b = some g₁ ∧
      Walks arena mode m₁ g₁ w m' g' := by
  have hpiece := Piece.move hstep
  rw [open_isNum hst] at hpiece
  obtain ⟨-, m₁, g₁, hv, hobs, hrest⟩ := walks_piece hpiece hm h
  rw [observe_one, onByte_start] at hobs
  exact ⟨m₁, g₁, hv, hobs, hrest⟩

/-- A scalar starts free unless an enum or `integer` governs it. -/
theorem enter_scalar_val {g g₁ : GuideState} {b : UInt8} (h : g.enter arena arena.root b = some g₁) :
    g₁.val = .free ∨ g₁.val = .intNumber ∨
      ∃ literals, arena.node (g.expected arena arena.root) = .enum literals := by
  have hval := enterValue_val h
  generalize g₁.val = val at hval
  cases hnode : arena.node (g.expected arena arena.root) with
  | enum literals => exact .inr (.inr ⟨literals, rfl⟩)
  | any => simp only [startScalar, hnode, Option.some.injEq] at hval; exact .inl hval.symm
  | number integer =>
      simp only [startScalar, hnode] at hval
      obtain ⟨-, hval⟩ := Option.ite_none_right_eq_some.1 hval
      cases integer with
      | true => exact .inr (.inl (Option.some.inj hval).symm)
      | false => exact .inl (Option.some.inj hval).symm
  | _ =>
      simp only [startScalar, hnode] at hval
      obtain ⟨-, hval⟩ := Option.ite_none_right_eq_some.1 hval
      exact .inl (Option.some.inj hval).symm

/-- A number may only start where numbers are taken. -/
theorem intNumber_start {g g₁ : GuideState} {b : UInt8} (h : g.enter arena arena.root b = some g₁)
    (hval : g₁.val = .intNumber) : b = 0x2D ∨ (0x30 ≤ b ∧ b ≤ 0x39) := by
  have hstart := enterValue_val h
  rw [hval] at hstart
  unfold startScalar at hstart
  split at hstart
  case h_5 => exact (Option.ite_none_right_eq_some.1 hstart).1
  case h_8 =>
    simp only at hstart
    split at hstart <;> cases hstart
  case h_1 => cases hstart
  all_goals cases (Option.ite_none_right_eq_some.1 hstart).2

/-! ### Keys -/

/-- A key in progress that may still become a property of a closed object is the start of one. -/
theorem key_prefix {g g' : GuideState} {level : Level} {rest : List Level}
    {props : List (List UInt8 × NodeId)} {required : BitVec 64} {w : List UInt8} (ho : g.overflow = 0)
    (hl : g.levels = level :: rest) (hnode : arena.node level.node = .object props required false)
    (hshort : ∀ p ∈ props, p.1.length < 65536) (havail : g.hasAvailableKey arena = true)
    (h : (g.startKey arena).reads arena w = some g') :
    ∃ i p, props[i]? = some p ∧ level.emitted.getLsbD i = false ∧ w <+: p.1 := by
  rw [hasAvailableKey_eq ho hl hnode, Bool.false_or, List.any_eq_true] at havail
  rw [reads_startKey ho hl hnode] at h
  obtain ⟨hcase, -⟩ := Option.ite_none_right_eq_some.1 h
  rcases hcase with hcase | rfl | halive
  · cases hcase
  · obtain ⟨i, hi, hbit⟩ := havail
    have hi := List.mem_range.1 hi
    exact ⟨i, props[i], List.getElem?_eq_getElem hi, by simpa using hbit, List.nil_prefix⟩
  · obtain ⟨i, hi, hbit⟩ := Mask.ne_zero_iff.1 halive
    rw [getLsbD_scanned_iff w hi (by decide), Mask.getLsbD_collect_iff hi] at hbit
    obtain ⟨⟨p, hp, hunset⟩, hall⟩ := hbit
    have hget : ∀ k (hk : k < w.length), p.1[k % 65536]? = some w[k] := by
      intro k hk
      obtain ⟨s, hs, hk'⟩ := hall k hk
      rw [List.getElem?_map, hp, Option.map_some, Option.some.injEq] at hs
      rw [hs, ← hk', Nat.zero_add]
    have hp₁ := hshort p (List.mem_of_getElem? hp)
    -- the position does not wrap inside a name
    have hw : w.length < 65536 := by
      by_contra hlong
      have hlast := hget 65535 (by omega)
      rw [List.getElem?_eq_none (by omega)] at hlast
      cases hlast
    refine ⟨i, p, hp, by simpa using hunset, List.prefix_iff_getElem?.2 fun k hk => ?_⟩
    have := hget k hk
    rwa [Nat.mod_eq_of_lt (by omega)] at this

/-- A key in progress can be ended, and the guide takes it. -/
theorem finish_key (hwf : arena.Wf) (hok : ∀ b, isSpace b = false → ok b) {k : Nat} {g g' : GuideState}
    {esc : Bool} {u : Nat} {t : List UInt8} {s : Str} (hopen : Opened arena ok 0x7B k g)
    (havail : g.hasAvailableKey arena = true) (ht : StrTail esc u t) (hread : readable.str s)
    (h : (g.startKey arena).reads arena (Str.body s ++ t) = some g') :
    ∃ (key : Str) (x : List UInt8) (g₁ : GuideState), Str.body key = Str.body s ++ t ++ x ∧
      (∀ b ∈ x, ok b) ∧ readable.str key ∧ g.keyGuide arena key = some g₁ := by
  obtain ⟨s', x, hs', hx, hread'⟩ := finish_str s ht hread
  have hxok : ∀ b ∈ x, ok b := fun b hb => hok b (hx b hb)
  -- where no names are matched the string is ended as it is
  have hfree : (g.startKey arena).val = .free →
      ∃ (key : Str) (x : List UInt8) (g₁ : GuideState), Str.body key = Str.body s ++ t ++ x ∧
        (∀ b ∈ x, ok b) ∧ readable.str key ∧ g.keyGuide arena key = some g₁ := by
    intro hval
    refine ⟨s', x, { g.startKey arena with val := .free }, hs', hxok, hread', ?_⟩
    rw [keyGuide, if_pos havail, reads_free hval, Option.bind_some]
    simp only [finishKey, hval]
  by_cases ho : g.overflow = 0
  · obtain ⟨level, rest, hl, hlive⟩ := hopen.level ho
    cases hnode : arena.node level.node with
    | object props required additional =>
        have hobj := hwf.node_wf level.node
        rw [hnode] at hobj
        obtain ⟨hsize, hkeys, -, -⟩ := hobj
        cases additional with
        | true =>
            by_cases hname : ∃ i, Names props level.emitted (Str.body s') i
            · obtain ⟨i, hname⟩ := hname
              exact ⟨s', x, _, hs', hxok, hread', keyGuide_declared ho hl hnode hsize hkeys hname⟩
            · push Not at hname
              have htakes := keyGuide_unknown ho hl hnode hsize hname
              rw [if_pos rfl] at htakes
              exact ⟨s', x, _, hs', hxok, hread', htakes⟩
        | false =>
            simp only [LevelLive, hnode] at hlive
            obtain ⟨-, hneed, -⟩ := hlive
            have hshort : ∀ p ∈ props, p.1.length < 65536 := by
              intro p hp
              obtain ⟨i, hi⟩ := List.mem_iff_getElem?.1 hp
              exact (hneed i p hi (.inr trivial)).1.2.2
            obtain ⟨i, p, hp, hunset, y, hy⟩ := key_prefix ho hl hnode hshort havail h
            obtain ⟨⟨⟨key, hkey⟩, hspaces, hlong⟩, hokp⟩ := hneed i p hp (.inr trivial)
            have hname : Names props level.emitted (Str.body key) i :=
              ⟨hunset, by rw [hkey]; exact hlong, p.2, by rw [hp, hkey]⟩
            refine ⟨key, y, _, by rw [hkey, hy], fun b hb => hokp b (by rw [← hy]; simp [hb]),
              readable_of_typable ⟨⟨key, rfl⟩, by rw [hkey]; exact ⟨hspaces, hlong⟩⟩,
              keyGuide_declared ho hl hnode hsize hkeys hname⟩
    | _ => exact hfree (by simp [startKey, ho, hl, hnode])
  · exact hfree (by simp [startKey, Nat.pos_of_ne_zero ho])

/-! ### Scalars -/

/-- The number a prefix of one is completed to. -/
theorem finish_number {n : NumS} {p : List UInt8} (h : NumPrefix n p) :
    ∃ (num : Number) (x : List UInt8), num.print = p ++ x ∧ ∀ b ∈ x, b = 0x30 := by
  have hzero : isDigit 0x30 := rfl
  cases h with
  | minus => exact ⟨⟨true, .zero, none, none⟩, [0x30], rfl, by simp⟩
  | zero neg => exact ⟨⟨neg, .zero, none, none⟩, [], by simp [Number.print, Number.printFrac, Number.printExp], by simp⟩
  | int neg d rest hd hrest =>
      exact ⟨⟨neg, .lead d rest hd hrest, none, none⟩, [],
        by simp [Number.print, Number.printFrac, Number.printExp], by simp⟩
  | dot neg int =>
      exact ⟨⟨neg, int, some ⟨0x30, [], hzero, by simp⟩, none⟩, [0x30],
        by simp [Number.print, Number.printFrac, Number.printExp, Digits.print], by simp⟩
  | frac neg int d => exact ⟨⟨neg, int, some d, none⟩, [], by simp [Number.print, Number.printExp], by simp⟩
  | exp neg int f e he =>
      exact ⟨⟨neg, int, f, some ⟨e, [], ⟨0x30, [], hzero, by simp⟩, he, .inl rfl⟩⟩, [0x30],
        by simp [Number.print, Number.printExp, Exponent.print, Digits.print], by simp⟩
  | expSign neg int f e s he hs =>
      exact ⟨⟨neg, int, f, some ⟨e, [s], ⟨0x30, [], hzero, by simp⟩, he, .inr (by simpa using hs)⟩⟩, [0x30],
        by simp [Number.print, Number.printExp, Exponent.print, Digits.print], by simp⟩
  | expDigits neg int f e =>
      exact ⟨⟨neg, int, f, some e⟩, [], by simp [Number.print, Number.printExp], by simp⟩

/-- A prefix of a number that is not empty is read as its first byte and the rest. -/
theorem prefix_run {n : NumS} {p : List UInt8} (h : NumPrefix n p) :
    ∃ b w s, p = b :: w ∧ numStart b = some s ∧ ∃ n', s.run w = some n' := by
  obtain ⟨num, x, hprint, -⟩ := finish_number h
  obtain ⟨b, w, s, hnum, hs, hrun⟩ := run_number num
  rw [hnum] at hprint
  have hne : p ≠ [] := by
    cases h with
    | minus => simp
    | zero neg => cases neg <;> simp [Number.printInt, IntPart.print]
    | int neg d rest hd hrest => cases neg <;> simp [Number.printInt, IntPart.print]
    | dot neg int => simp
    | frac neg int d => simp [Number.printFrac]
    | exp neg int f e he => simp
    | expSign neg int f e s he hs => simp
    | expDigits neg int f e => simp [Exponent.print]
  cases p with
  | nil => exact absurd rfl hne
  | cons c p =>
      rw [List.cons_append, List.cons.injEq] at hprint
      obtain ⟨rfl, hw⟩ := hprint
      rw [hw, NumS.run_append] at hrun
      obtain ⟨n', hn', -⟩ := Option.bind_eq_some_iff.1 hrun
      exact ⟨b, p, s, rfl, hs, n', hn'⟩

/-! ### One case for each state -/

/-- Whether an object may stand at the root under the compiled schema. -/
def RootGuided (arena : SchemaArena) : Prop :=
  arena.node arena.root = .any ∨
    ∃ props required additional, arena.node arena.root = .object props required additional

/-- The literals of an enum in force are live. -/
theorem Room.literals (hwf : arena.Wf) {k : Nat} {g : GuideState} (h : Room arena ok k g) {literals : List (List UInt8)}
    (hnode : arena.node (g.expected arena arena.root) = .enum literals) :
    ∀ l ∈ literals, Matchable l ∧ ∀ b ∈ l, ok b := by
  by_cases ho : g.overflow = 0
  · have hlive := h.live ho
    cases hn : guidedDepth - g.levels.length <;> rw [hn] at hlive <;> simpa [Live, hnode] using hlive
  · have hexp : g.expected arena arena.root = anyId := by simp [expected, Nat.pos_of_ne_zero ho]
    intro l _
    rw [hexp, hwf.node_any] at hnode
    cases hnode

/-- A string that agrees with a literal as far as the position counts is a prefix of it: to wrap, the
position would have to pass two quotation marks in a row. -/
theorem prefix_of_agrees {v : Value} {l w x : List UInt8} {s : Str} (hv : v.isScalar) (hprint : v.print = l)
    (hmatch : Matchable l) (hs : Str.body s = w ++ x) (h : Agrees 0x22 w l) : 0x22 :: w <+: l := by
  obtain ⟨hhead, hall⟩ := h
  obtain ⟨-, hlen⟩ := hmatch
  have hshort : w.length ≤ 65535 := by
    by_contra hlong
    have hquote : w[65535]? = some 0x22 := by
      have hwrap := hall 65535 (by omega)
      rw [List.getElem?_eq_getElem (by omega), ← hwrap]
      exact hhead
    have hlast := hall 65534 (by omega)
    have hget : l[65535]? = some 0x22 := by
      obtain ⟨s', rfl⟩ : ∃ s', v = .str s' := by
        subst hprint
        cases v with
        | str s' => exact ⟨s', rfl⟩
        | lit l => cases l <;> cases hhead
        | num n =>
            obtain ⟨b, w, hn, hb⟩ := number_head n
            rw [Value.print, hn] at hhead
            cases hhead
            exact absurd hb (by decide)
        | _ => cases hv
      have hfull : l.length = 65536 := by
        by_contra hne
        rw [List.getElem?_eq_none (by omega)] at hlast
        cases hlast
      rw [← hprint] at hfull ⊢
      simp only [Value.print, Str.print, List.length_cons, List.length_append, List.length_nil] at hfull ⊢
      rw [List.getElem?_cons_succ, List.getElem?_append_right (by omega)]
      simp [show 65534 - (Str.body s').length = 0 by omega]
    refine (body_no_quotes s).2 65534 ⟨?_, ?_⟩
    · rw [hs, List.getElem?_append_left (by omega), List.getElem?_eq_getElem (by omega), ← hlast]
      exact hget
    · rw [hs, List.getElem?_append_left (by omega)]
      exact hquote
  refine List.prefix_iff_getElem?.2 fun i hi => ?_
  cases i with
  | zero => exact hhead
  | succ i =>
      have hi' : i < w.length := by simpa using hi
      have := hall i hi'
      rwa [Nat.mod_eq_of_lt (by omega), Nat.add_comm] at this

/-- Where a value may start one is supplied, an object at the root of an `Object` document. -/
theorem value_ending (hwf : arena.Wf) (hok : ∀ b, isSpace b = false → ok b)
    (hlive : Live arena ok guidedDepth arena.root) (hroot : mode = .object → RootGuided arena)
    {fs : List Bool} {w : List UInt8} {g : GuideState} (h : Context arena mode fs w g)
    (hlen : fs.length ≤ maxDepth) : ∃ t s, Ending arena ok mode w t s := by
  have hroom := room_of_context hwf hlive h
  have hend : ∀ {v : Value} {g' : GuideState}, Supplied arena ok fs.length g v g' → RootOk mode fs v →
      ∃ t s, Ending arena ok mode w t s := by
    intro v g' hv hrootv
    have := ending_of_value hwf hok hlive h (p := []) (v := v) rfl hv.ok_bytes hrootv hv.all hv.depth hv.takes
    simpa using this
  by_cases htop : mode = .object ∧ fs = []
  · obtain ⟨hmode, rfl⟩ := htop
    cases h with
    | top gap hgap =>
        obtain ⟨v, g', hobj, hv⟩ := supply_object hwf hok hroom (by decide) (hroot hmode)
          fun len _ _ => suppliesAt hwf hok len
        exact hend hv fun _ _ => hobj
  · obtain ⟨v, g', hv⟩ := exists_value hwf hok hroom hlen
    exact hend hv fun hm hfs => absurd ⟨hm, hfs⟩ htop

/-- A member whose key is taken is completed with its value. -/
theorem keyed_ending (hwf : arena.Wf) (hok : ∀ b, isSpace b = false → ok b)
    (hlive : Live arena ok guidedDepth arena.root) (hroot : mode = .object → RootGuided arena)
    {fs : List Bool} {w p q s : List UInt8} {g g₁ g₂ g₃ : GuideState} (h : Context arena mode fs w g)
    (hlen : fs.length < maxDepth) (he : g.enter arena arena.root 0x7B = some g₁)
    (hp : MembersBefore arena (fs.length + 1) g₁ p g₂) (gap₁ : Gap) (key : Str) (gap₂ : Gap)
    (hgap₁ : readable.gap false gap₁) (hkey : readable.str key) (hgap₂ : readable.gap false gap₂)
    (hk : g₂.keyGuide arena key = some g₃)
    (hprint : gap₁.bytes ++ Str.print key ++ gap₂.bytes ++ [0x3A] = q ++ s) (hs : ∀ b ∈ s, ok b) :
    ∃ t s', Ending arena ok mode (w ++ 0x7B :: (p ++ q)) t s' := by
  have hctx := Context.obj h hlen he hp gap₁ key gap₂ .empty hgap₁ hkey hgap₂ (gap_empty _) hk
  obtain ⟨t, s', ht⟩ := value_ending hwf hok hlive hroot hctx (by simpa using hlen)
  refine ⟨t, s ++ s', Ending.append ?_ hs⟩
  have hbytes : w ++ 0x7B :: (p ++ q) ++ s =
      w ++ 0x7B :: (p ++ (gap₁.bytes ++ Str.print key ++ gap₂.bytes ++ 0x3A :: Gap.empty.bytes)) := by
    simp only [gap_empty_bytes, hprint]
    simp
  rw [hbytes]
  exact ht

/-- A key in progress, behind the members before it and a gap. -/
theorem key_ending (hwf : arena.Wf) (hok : ∀ b, isSpace b = false → ok b)
    (hlive : Live arena ok guidedDepth arena.root) (hroot : mode = .object → RootGuided arena)
    {fs : List Bool} {w p : List UInt8} {g g₁ g₂ g₃ : GuideState} {esc : Bool} {u : Nat} {t : List UInt8}
    {s : Str} (h : Context arena mode fs w g) (hlen : fs.length < maxDepth)
    (he : g.enter arena arena.root 0x7B = some g₁) (hp : MembersBefore arena (fs.length + 1) g₁ p g₂)
    (gap : Gap) (hgap : readable.gap false gap) (havail : g₂.hasAvailableKey arena = true)
    (ht : StrTail esc u t) (hread : readable.str s)
    (hreads : (g₂.startKey arena).reads arena (Str.body s ++ t) = some g₃) :
    ∃ t' s', Ending arena ok mode (w ++ 0x7B :: (p ++ (gap.bytes ++ 0x22 :: (Str.body s ++ t)))) t' s' := by
  have hroom := room_of_context hwf hlive h
  have hopen := (hroom.enter hwf (.inl rfl) hlen he).membersBefore hwf hp
  obtain ⟨key, x, g₄, hbody, hx, hkey, hk⟩ := finish_key hwf hok hopen havail ht hread hreads
  refine keyed_ending hwf hok hlive hroot h hlen he hp gap key .empty hgap hkey (gap_empty _) hk
    (s := x ++ [0x22, 0x3A]) ?_ ?_
  · simp [Str.print, hbody]
  · intro b hb
    simp only [List.mem_append, List.mem_cons, List.not_mem_nil, or_false] at hb
    rcases hb with hb | rfl | rfl
    · exact hx b hb
    · exact hok _ rfl
    · exact hok _ rfl

/-- A scalar that has started and is no enum literal is completed to any value of its kind. -/
theorem string_ending (hwf : arena.Wf) (hok : ∀ b, isSpace b = false → ok b)
    (hlive : Live arena ok guidedDepth arena.root) {fs : List Bool} {w : List UInt8}
    {g g₁ g₂ : GuideState} {esc : Bool} {u : Nat} {t : List UInt8} {s : Str}
    (h : Context arena mode fs w g) (htop : TopOk mode fs) (hlen : fs.length ≤ maxDepth)
    (he : g.enter arena arena.root 0x22 = some g₁) (ht : StrTail esc u t) (hread : readable.str s)
    (hreads : g₁.reads arena (Str.body s ++ t) = some g₂) :
    ∃ t' s', Ending arena ok mode (w ++ 0x22 :: (Str.body s ++ t)) t' s' := by
  obtain ⟨s', x, hs', hx, hread'⟩ := finish_str s ht hread
  rcases enter_scalar_val he with hval | hval | ⟨literals, hnode⟩
  · obtain ⟨g', htakes⟩ := closed_of_free (c := 0x22) (w := Str.body s') he hval
    refine ending_of_value hwf hok hlive h (v := .str s') (s := x ++ [0x22]) ?_ ?_ (.of_topOk htop _) hread'
      (by simpa [Value.depth] using hlen) htakes
    · simp [Value.print, Str.print, hs']
    · intro b hb
      simp only [List.mem_append, List.mem_singleton] at hb
      rcases hb with hb | rfl
      · exact hok b (hx b hb)
      · exact hok _ rfl
  · exact absurd (intNumber_start he hval) (by decide)
  · -- under an enum a literal that is still alive is completed
    have hcontent : (g.enter arena arena.root 0x22).bind (fun g => g.reads arena (Str.body s ++ t)) = some g₂ := by
      rw [he, Option.bind_some, hreads]
    obtain ⟨alive, halive, -, hbits⟩ := enum_content (by decide) hnode hcontent
    obtain ⟨j, hj, hbit⟩ := Mask.ne_zero_iff.1 halive
    obtain ⟨l, hl, hagree⟩ := (hbits j hj).1 hbit
    have hmem := List.mem_of_getElem? hl
    have hroom := room_of_context hwf hlive h
    obtain ⟨hmatch, hokl⟩ := hroom.literals hwf hnode l hmem
    have hlits := hwf.node_wf (g.expected arena arena.root)
    rw [hnode] at hlits
    obtain ⟨v, hv, hprint, -⟩ := hlits.2.2 l hmem
    have hpre : 0x22 :: (Str.body s ++ t) <+: l := prefix_of_agrees hv hprint hmatch hs' hagree
    obtain ⟨y, hy⟩ := hpre
    subst hprint
    obtain ⟨hall, g', htakes⟩ := literal_takes hwf hnode hv hmem hmatch
    refine ending_of_value hwf hok hlive h hy.symm ?_ (.of_topOk htop _) hall
      (by rw [scalar_depth hv]; omega) htakes
    intro b hb
    exact hokl b (by rw [← hy]; simp [hb])

/-- What has been read of a number is completed by zeros, or to the enum literal it starts. -/
theorem number_ending (hwf : arena.Wf) (hok : ∀ b, isSpace b = false → ok b)
    (hlive : Live arena ok guidedDepth arena.root) {fs : List Bool} {w p : List UInt8}
    {g g₂ : GuideState} {n : NumS} (h : Context arena mode fs w g) (htop : TopOk mode fs)
    (hlen : fs.length ≤ maxDepth) (hp : NumPrefix n p)
    (hreads : g.numberGuide arena arena.root p = some g₂) :
    ∃ t' s', Ending arena ok mode (w ++ p) t' s' := by
  obtain ⟨num, x, hnum, hx⟩ := finish_number hp
  obtain ⟨b, rest, s, rfl, hs, -⟩ := prefix_run hp
  obtain ⟨g₁, he, hrest⟩ := Option.bind_eq_some_iff.1 hreads
  have hok0 : ∀ b ∈ x, ok b := fun b hb => by rw [hx b hb]; exact hok _ rfl
  have hend : ∀ {g₃ : GuideState}, g.numberGuide arena arena.root num.print = some g₃ →
      (g₃.val = .free ∨ g₃.val = .intNumber) → ∃ t' s', Ending arena ok mode (w ++ b :: rest) t' s' := by
    intro g₃ hg₃ hval
    obtain ⟨g', htakes⟩ := number_settles hg₃ hval
    exact ending_of_value hwf hok hlive h (v := .num num) hnum hok0 (.of_topOk htop _) trivial
      (by simpa [Value.depth] using hlen) htakes
  have hguide : ∀ {g₃ : GuideState}, g₁.reads arena (rest ++ x) = some g₃ →
      g.numberGuide arena arena.root num.print = some g₃ := by
    intro g₃ hg₃
    rw [hnum, List.cons_append, numberGuide, he, Option.bind_some, hg₃]
  rcases enter_scalar_val he with hval | hval | ⟨literals, hnode⟩
  · exact hend (hguide (reads_free hval _)) (.inl hval)
  · have hintNumber : ∀ w, g₁.reads arena w =
        if ∃ b ∈ w, b = 0x2E ∨ b = 0x65 ∨ b = 0x45 then none else some g₁ := reads_intNumber hval
    have hread := hintNumber (rest ++ x)
    have hnone : ¬ ∃ c ∈ rest ++ x, c = 0x2E ∨ c = 0x65 ∨ c = 0x45 := by
      rintro ⟨c, hc, hmark⟩
      rcases List.mem_append.1 hc with hc | hc
      · have hrest' := hintNumber rest
        rw [if_pos ⟨c, hc, hmark⟩, hrest] at hrest'
        cases hrest'
      · rw [hx c hc] at hmark
        exact absurd hmark (by decide)
    rw [if_neg hnone] at hread
    exact hend (hguide hread) (.inr hval)
  · have hbyte : b = 0x2D ∨ (0x30 ≤ b ∧ b ≤ 0x39) := by
      rcases JsonMachine.numStart_byte hs with ⟨rfl, -⟩ | ⟨rfl, -⟩ | ⟨hb, -⟩
      · exact .inl rfl
      · exact .inr (by decide)
      · exact .inr (by grind)
    obtain ⟨l, hmem, y, hy⟩ := number_prefix hwf hbyte hnode hreads
    obtain ⟨hmatch, hokl⟩ := (room_of_context hwf hlive h).literals hwf hnode l hmem
    have hlits := hwf.node_wf (g.expected arena arena.root)
    rw [hnode] at hlits
    obtain ⟨v, hv, rfl, -⟩ := hlits.2.2 l hmem
    obtain ⟨hall, g', htakes⟩ := literal_takes hwf hnode hv hmem hmatch
    refine ending_of_value hwf hok hlive h hy.symm ?_ (.of_topOk htop _) hall
      (by rw [scalar_depth hv]; omega) htakes
    intro b hb
    exact hokl b (by rw [← hy]; simp [hb])

/-- A literal is told from the others by its first byte. -/
theorem eq_literal_of_head {v : Value} (hv : v.isScalar) {l : Literal} {b : UInt8} (hb : l.print.head? = some b)
    (h : v.print.head? = some b) : v = .lit l := by
  cases v with
  | lit l' => cases l <;> cases hb <;> cases l' <;> first | rfl | (exact absurd h (by decide))
  | num n =>
      obtain ⟨c, rest, hn, hc⟩ := number_head n
      rw [Value.print, hn] at h
      cases h
      exact absurd hc (by cases l <;> cases hb <;> decide)
  | str s => cases l <;> cases hb <;> cases h
  | _ => cases hv

/-- A literal in progress is completed. -/
theorem literal_ending (hwf : arena.Wf) (hok : ∀ b, isSpace b = false → ok b)
    (hlive : Live arena ok guidedDepth arena.root) {fs : List Bool} {w p q : List UInt8}
    {g g₁ : GuideState} {b c : UInt8} {rest : List UInt8} {l : Literal} (h : Context arena mode fs w g)
    (htop : TopOk mode fs) (hlen : fs.length ≤ maxDepth) (hl : l.print = b :: (rest ++ [c]))
    (hp : l.print = p ++ q) (he : g.enter arena arena.root b = some g₁) :
    ∃ t' s', Ending arena ok mode (w ++ p) t' s' := by
  have hhead : l.print.head? = some b := by rw [hl]; rfl
  have hbyte : ¬ (b = 0x2D ∨ (0x30 ≤ b ∧ b ≤ 0x39)) := by cases l <;> cases hhead <;> decide
  have hok' : ∀ b ∈ q, ok b := by
    intro b hb
    have hmem : b ∈ l.print := by rw [hp]; simp [hb]
    refine hok b ?_
    cases l <;> simp only [Literal.print, List.mem_cons, List.not_mem_nil, or_false] at hmem <;>
      (rcases hmem with rfl | rfl | rfl | rfl | rfl) <;> rfl
  have hend : (∃ g', valueGuide arena arena.root (.lit l) g = some g') →
      ∃ t' s', Ending arena ok mode (w ++ p) t' s' := by
    rintro ⟨g', htakes⟩
    exact ending_of_value hwf hok hlive h (v := .lit l) hp hok' (.of_topOk htop _) trivial
      (by simpa [Value.depth] using hlen) htakes
  rcases enter_scalar_val he with hval | hval | ⟨literals, hnode⟩
  · refine hend ?_
    rw [valueGuide, hl]
    exact closed_of_free he hval
  · exact absurd (intNumber_start he hval) hbyte
  · have hne : b ≠ 0x7B ∧ b ≠ 0x5B := by cases l <;> cases hhead <;> decide
    rw [enter_enum hne hnode] at he
    obtain ⟨hstart, -⟩ := Option.ite_none_left_eq_some.1 he
    obtain ⟨j, hj, hbit⟩ := Mask.ne_zero_iff.1 hstart
    rw [starting, Mask.getLsbD_collect_iff hj] at hbit
    obtain ⟨l', hl', hhead'⟩ := hbit
    have hmem := List.mem_of_getElem? hl'
    have hlits := hwf.node_wf (g.expected arena arena.root)
    rw [hnode] at hlits
    obtain ⟨v, hv, rfl, -⟩ := hlits.2.2 l' hmem
    obtain rfl : v = .lit l := eq_literal_of_head hv hhead (by simpa using hhead')
    obtain ⟨hmatch, -⟩ := (room_of_context hwf hlive h).literals hwf hnode _ hmem
    exact hend (literal_takes hwf hnode hv hmem hmatch).2

/-- A value just written is kept, and what is open around it is closed. -/
theorem written_ending (hwf : arena.Wf) (hok : ∀ b, isSpace b = false → ok b)
    (hlive : Live arena ok guidedDepth arena.root) {fs : List Bool} {w : List UInt8} {v : Value} {gap : Gap}
    {m : JsonMachine} {g : GuideState} (hout : Outer mode fs w) (hroot : RootOk mode fs v)
    (hleft : m.state.isNum = false) (h : Walks arena mode (.new mode) .new (w ++ (v.print ++ gap.bytes)) m g) :
    ∃ t' s', Ending arena ok mode (w ++ (v.print ++ gap.bytes)) t' s' := by
  obtain ⟨m₁, g₁, hctx, ⟨st, r, hst, hv⟩, h⟩ := context_behind hwf hout h
  obtain ⟨hall, hgap, hd, g₂, htakes⟩ :=
    value_walked hwf hst hv (context_val hwf hctx) (outer_length hout) hroot hleft h
  exact context_ending hwf hok hlive hctx hroot hall hgap hd htakes

/-- The last member of an object, read from where its value starts. -/
theorem members_outer {fs : List Bool} {w : List UInt8} (h : Outer mode fs w) (hlen : fs.length < maxDepth)
    (members : Members) (hd : members.depth + (fs.length + 1) ≤ maxDepth) :
    ∃ (w' : List UInt8) (v : Value) (gap : Gap), Outer mode (false :: fs) w' ∧ w ++ 0x7B :: members.print = w' ++ (v.print ++ gap.bytes) := by
  cases members with
  | one gap₁ key gap₂ gap₃ v gap =>
      exact ⟨_, v, gap, .obj h hlen .nil gap₁ key gap₂ gap₃, by simp [Members.print]⟩
  | snoc init gap₁ key gap₂ gap₃ v gap =>
      simp only [Members.depth] at hd
      exact ⟨_, v, gap, .obj h hlen (.comma init (by omega)) gap₁ key gap₂ gap₃, by simp [Members.print]⟩

/-- The last element of an array, read from where it starts. -/
theorem items_outer {fs : List Bool} {w : List UInt8} (h : Outer mode fs w) (htop : TopOk mode fs)
    (hlen : fs.length < maxDepth) (items : Items) (hd : items.depth + (fs.length + 1) ≤ maxDepth) :
    ∃ (w' : List UInt8) (v : Value) (gap : Gap), Outer mode (true :: fs) w' ∧ w ++ 0x5B :: items.print = w' ++ (v.print ++ gap.bytes) := by
  cases items with
  | one gap₁ v gap => exact ⟨_, v, gap, .arr h htop hlen .nil gap₁, by simp [Items.print]⟩
  | snoc init gap₁ v gap =>
      simp only [Items.depth] at hd
      exact ⟨_, v, gap, .arr h htop hlen (.comma init (by omega)) gap₁, by simp [Items.print]⟩

theorem S.gap_objComma : S.objComma.gap := rfl

/-- The members in front of a comma, and the comma. -/
theorem walks_comma (hwf : arena.Wf) {fs : List Bool} {m m' : JsonMachine} {g g' : GuideState}
    {w : List UInt8} (hlen : fs.length < maxDepth) (hm : m.view = ⟨false :: fs, .objFirst, 0⟩)
    (hg : g.val = .free) (members : Members) (hd : members.depth + (fs.length + 1) ≤ maxDepth)
    (h : Walks arena mode m g ((members.print ++ [0x2C]) ++ w) m' g') :
    ∃ m₁ g₁, g₁.hasAvailableKey arena = true ∧ m₁.view = ⟨false :: fs, .objComma, 0⟩ ∧ g₁.val = .free ∧
      MembersBefore arena (fs.length + 1) g (members.print ++ [0x2C]) g₁ ∧ Walks arena mode m₁ g₁ w m' g' := by
  have hread : Piece mode _ _ _ _ _ := members_piece hlen members
  obtain ⟨⟨hC, -⟩, m₁, g₁, hv, hobs, hrest⟩ := walks_piece (hread.append (members_comma members)) hm h
  rw [observe_members hwf members hg 0x2C { objComma := true } rfl] at hobs
  obtain ⟨g₂, hi, hobs⟩ := Option.bind_eq_some_iff.1 hobs
  have hval := membersGuide_val hwf members hi
  rw [onByte_comma hval] at hobs
  obtain ⟨hkey, hobs⟩ := Option.ite_none_right_eq_some.1 hobs
  obtain rfl := Option.some.inj hobs
  exact ⟨m₁, _, hkey, hv, hval, .comma members hC.1 hd hi hkey, hrest⟩

/-- A key and the gap in front of its colon. -/
theorem walks_keyEnd {fs : List Bool} {st : S} {m m' : JsonMachine} {g g' : GuideState}
    (hst : st = .objFirst ∨ st = .objComma) (hm : m.view = ⟨fs, st, 0⟩) (hg : g.val = .free) (gap₁ : Gap)
    (key : Str) (gap₂ : Gap)
    (h : Walks arena mode m g (gap₁.bytes ++ Str.print key ++ gap₂.bytes) m' g') :
    readable.gap false gap₁ ∧ readable.str key ∧ readable.gap false gap₂ ∧
      ∃ g₁, g.keyGuide arena key = some g₁ := by
  have hgapst : st.gap := by rcases hst with rfl | rfl <;> rfl
  rw [List.append_assoc] at h
  obtain ⟨hgap₁, m₁, r, hv₁, h⟩ := walks_gap hgapst hm hg gap₁ h
  have hkeyPiece : Piece mode ⟨fs, st, r⟩ _ _ _ _ := key_piece hst r key
  obtain ⟨hkey, m₂, g₂, hv₂, hobs, h⟩ := walks_piece hkeyPiece hv₁ h
  rw [observe_key] at hobs
  have h' : Walks arena mode m₂ g₂ (gap₂.bytes ++ []) m' g' := by rwa [List.append_nil]
  obtain ⟨hgap₂, -⟩ := walks_gap S.gap_colon hv₂ (keyGuide_val hobs) gap₂ h'
  exact ⟨hgap₁, hkey, hgap₂, g₂, hobs⟩

theorem observe_digits (g : GuideState) (w : List UInt8) :
    g.observe arena arena.root (w.map fun b => ⟨b, {}, true⟩) = g.reads arena w := by
  induction w generalizing g with
  | nil => rfl
  | cons b w ih =>
      rw [List.map_cons, observe_cons, onByte_content, reads_cons]
      simp only [ih]

/-- The literal an index of the automaton stands for. -/
theorem literal_of_index {l : Nat} (hl : l < 3) :
    ∃ (lit : Literal) (b : UInt8) (rest : List UInt8) (c : UInt8), lit.print = literals l ∧
      lit.print = b :: (rest ++ [c]) ∧ litStart b = some l := by
  rcases (by omega : l = 0 ∨ l = 1 ∨ l = 2) with rfl | rfl | rfl
  · exact ⟨.true, 0x74, [0x72, 0x75], 0x65, rfl, rfl, rfl⟩
  · exact ⟨.false, 0x66, [0x61, 0x6C, 0x73], 0x65, rfl, rfl, rfl⟩
  · exact ⟨.null, 0x6E, [0x75, 0x6C], 0x6C, rfl, rfl, rfl⟩

/-- From every state a run reaches, a document can be finished: one case for each shape. -/
theorem exists_text (hwf : arena.Wf) (hok : ∀ b, isSpace b = false → ok b)
    (hlive : Live arena ok guidedDepth arena.root) (hroot : mode = .object → RootGuided arena)
    {w : List UInt8} {m : JsonMachine} {g : GuideState} (h : Walks arena mode (.new mode) .new w m g) :
    ∃ t s, Ending arena ok mode w t s := by
  have hshape : Shape mode m.frames m.state w := by
    obtain ⟨τ, ht, -⟩ := h
    exact shape_run (by rw [JsonMachine.run_eq_trace, ht]; rfl)
  generalize hfs : m.frames = fs at hshape
  generalize hst : m.state = st at hshape
  cases hshape with
  | value hout =>
      obtain ⟨hctx, -⟩ := context_of_outer hwf hout h
      exact value_ending hwf hok hlive hroot hctx (outer_length hout)
  | @objFirst fs w hout hd gap =>
      obtain ⟨m₀, g₀, hctx, ⟨st₀, r₀, hst₀, hv₀⟩, h⟩ := context_behind hwf hout h
      obtain ⟨-, m₁, g₁, hv₁, he, h⟩ := walks_objOpen hst₀ hv₀ h
      have h' : Walks arena mode m₁ g₁ (gap.bytes ++ []) m g := by rwa [List.append_nil]
      obtain ⟨hgap, -⟩ := walks_gap S.gap_objFirst hv₁ (enter_open hwf (.inl rfl) he) gap h'
      have hopen := (room_of_context hwf hlive hctx).enter hwf (.inl rfl) hd he
      obtain ⟨v, s, g', hobj, hprint, hoks, hall, hdv, htakes⟩ :=
        object_from_gap hwf hok hd (fun _ => suppliesAt hwf hok _) he hopen gap hgap
      exact ending_of_value hwf hok hlive hctx (p := 0x7B :: gap.bytes) (by rw [hprint]; rfl) hoks
        (fun _ _ => hobj) hall hdv htakes
  | @arrFirst fs w hout htop hd =>
      obtain ⟨m₀, g₀, hctx, ⟨st₀, r₀, hst₀, hv₀⟩, h⟩ := context_behind hwf hout h
      obtain ⟨-, m₁, g₁, -, he, -⟩ := walks_arrOpen hst₀ htop hv₀ h
      have hopen := (room_of_context hwf hlive hctx).enter hwf (.inr rfl) hd he
      obtain ⟨g', hclose⟩ := hopen.closes_array
      have htakes : valueGuide arena arena.root (.emptyArr .empty) g₀ = some g' := by
        rw [valueGuide, he, Option.bind_some, hclose]
      refine ending_of_value hwf hok hlive hctx (v := .emptyArr .empty) (s := [0x5D]) rfl ?_ (.of_topOk htop _) rfl
        (by simp only [Value.depth]; omega) htakes
      intro b hb
      rw [List.mem_singleton.1 hb]
      exact hok _ rfl
  | @objComma fs w hout hlen members hd gap =>
      have hbytes : w ++ 0x7B :: (members.print ++ 0x2C :: gap.bytes) =
          w ++ 0x7B :: ((members.print ++ [0x2C]) ++ gap.bytes) := by simp
      rw [hbytes] at h ⊢
      obtain ⟨m₀, g₀, hctx, ⟨st₀, r₀, hst₀, hv₀⟩, h⟩ := context_behind hwf hout h
      obtain ⟨-, m₁, g₁, hv₁, he, h⟩ := walks_objOpen hst₀ hv₀ h
      obtain ⟨m₂, g₂, havail, hv₂, hval₂, hbefore, h⟩ :=
        walks_comma hwf hlen hv₁ (enter_open hwf (.inl rfl) he) members hd h
      have h' : Walks arena mode m₂ g₂ (gap.bytes ++ []) m g := by rwa [List.append_nil]
      obtain ⟨hgap, -⟩ := walks_gap S.gap_objComma hv₂ hval₂ gap h'
      obtain ⟨t, s, ht⟩ := key_ending hwf hok hlive hroot hctx hlen he hbefore gap hgap havail .plain
        (s := []) (by trivial) (reads_nil _)
      refine ⟨t, [0x22] ++ s, Ending.append ?_ ?_⟩
      · simpa using ht
      · intro b hb
        rw [List.mem_singleton.1 hb]
        exact hok _ rfl
  | @key fs w p esc u t hout hd hp gap s ht =>
      obtain ⟨m₀, g₀, hctx, ⟨st₀, r₀, hst₀, hv₀⟩, h⟩ := context_behind hwf hout h
      obtain ⟨-, m₁, g₁, hv₁, he, h⟩ := walks_objOpen hst₀ hv₀ h
      obtain ⟨m₂, g₂, st₂, hst₂, hv₂, hval₂, hbefore, h⟩ :=
        walks_membersBefore hwf hd hv₁ (enter_open hwf (.inl rfl) he) hp h
      have hgapst : st₂.gap := by rcases hst₂ with rfl | rfl <;> rfl
      obtain ⟨hgap, m₃, r₃, hv₃, h⟩ := walks_gap hgapst hv₂ hval₂ gap h
      obtain ⟨havail, m₄, hv₄, h⟩ := walks_keyOpen hst₂ hv₃ h
      obtain ⟨hread, hreads⟩ := walks_content ht hv₄ h
      exact key_ending hwf hok hlive hroot hctx hd he hbefore gap hgap havail ht hread hreads
  | @colon fs w p hout hd hp gap₁ s gap₂ =>
      obtain ⟨m₀, g₀, hctx, ⟨st₀, r₀, hst₀, hv₀⟩, h⟩ := context_behind hwf hout h
      obtain ⟨-, m₁, g₁, hv₁, he, h⟩ := walks_objOpen hst₀ hv₀ h
      obtain ⟨m₂, g₂, st₂, hst₂, hv₂, hval₂, hbefore, h⟩ :=
        walks_membersBefore hwf hd hv₁ (enter_open hwf (.inl rfl) he) hp h
      obtain ⟨hgap₁, hread, hgap₂, g₃, hk⟩ := walks_keyEnd hst₂ hv₂ hval₂ gap₁ s gap₂ h
      exact keyed_ending hwf hok hlive hroot hctx hd he hbefore gap₁ s gap₂ hgap₁ hread hgap₂ hk rfl
        (fun b hb => by rw [List.mem_singleton.1 hb]; exact hok _ rfl)
  | @str fs w esc u t hout htop s ht =>
      obtain ⟨m₀, g₀, hctx, ⟨st₀, r₀, hst₀, hv₀⟩, h⟩ := context_behind hwf hout h
      obtain ⟨m₁, g₁, hv₁, he, h⟩ := walks_start hst₀ (.strOpen hst₀ htop) hv₀ h
      obtain ⟨hread, hreads⟩ := walks_content ht hv₁ h
      exact string_ending hwf hok hlive hctx htop (outer_length hout) he ht hread hreads
  | @num fs w n p hout htop hp =>
      obtain ⟨m₀, g₀, hctx, ⟨st₀, r₀, hst₀, hv₀⟩, h⟩ := context_behind hwf hout h
      obtain ⟨b, rest, s, rfl, hs, n', hrun⟩ := prefix_run hp
      obtain ⟨m₁, g₁, hv₁, he, h⟩ := walks_start hst₀ (.numOpen hst₀ htop hs) hv₀ h
      have h' : Walks arena mode m₁ g₁ (rest ++ []) m g := by rwa [List.append_nil]
      obtain ⟨-, m₂, g₂, -, hobs, -⟩ := walks_piece (numRest_piece s n' rest hrun) hv₁ h'
      rw [observe_digits] at hobs
      have hreads : g₀.numberGuide arena arena.root (b :: rest) = some g₂ := by
        rw [numberGuide, he, Option.bind_some, hobs]
      exact number_ending hwf hok hlive hctx htop (outer_length hout) hp hreads
  | @lit fs w l p hout htop hl =>
      obtain ⟨m₀, g₀, hctx, ⟨st₀, r₀, hst₀, hv₀⟩, h⟩ := context_behind hwf hout h
      obtain ⟨lit, b, rest, c, hlit, hprint, hstart⟩ := literal_of_index hl
      cases p with
      | zero =>
          obtain ⟨rfl, rfl⟩ := walks_nil.1 h
          have hopen : S.Open (.lit l 0) := by
            rw [← hst, show m.state = st₀ from congrArg View.state hv₀]
            exact hst₀
          rcases hopen with hopen | hopen <;> cases hopen
      | succ p =>
          rw [← hlit, hprint, List.take_succ_cons] at h ⊢
          obtain ⟨m₁, g₁, -, he, -⟩ := walks_start hst₀ (.litOpen hst₀ htop hstart) hv₀ h
          refine literal_ending hwf hok hlive hctx htop (outer_length hout) hprint
            (q := (rest ++ [c]).drop p) ?_ he
          rw [hprint, List.cons_append, List.take_append_drop]
  | @objNext fs w hout hlen members hd =>
      obtain ⟨w', v, gap, hout', hprint⟩ := members_outer hout hlen members hd
      rw [hprint] at h ⊢
      exact written_ending hwf hok hlive hout' (.of_topOk (topOk_cons _ _ _) _) (by rw [hst]; rfl) h
  | @arrNext fs w hout htop hlen items hd =>
      obtain ⟨w', v, gap, hout', hprint⟩ := items_outer hout htop hlen items hd
      rw [hprint] at h ⊢
      exact written_ending hwf hok hlive hout' (.of_topOk (topOk_cons _ _ _) _) (by rw [hst]; rfl) h
  | done t hd hrootv =>
      have hprint : t.print = t.pre.bytes ++ (t.value.print ++ t.post.bytes) := by simp [Text.print]
      rw [hprint] at h ⊢
      exact written_ending hwf hok hlive (.top t.pre) (fun hm _ => hrootv hm) (by rw [hst]; rfl) h

/-! ## Runs -/

/-- The guide reads a text whose value it takes. -/
theorem observe_text_of_takes (hwf : arena.Wf) {t : Text} {g : GuideState}
    (h : valueGuide arena arena.root t.value .new = some g) :
    ∃ g', GuideState.new.observe arena arena.root (textTrace t) = some g' := by
  have hnew : GuideState.new.val = .free := rfl
  have hobserves : Observes arena arena.root t.value := observe_value hwf t.value
  have hobs := hobserves .new hnew
  rw [h] at hobs
  obtain ⟨g₁, hv, hsettle⟩ := Option.bind_eq_some_iff.1 hobs
  rw [textTrace, observe_append, observe_gap hnew, Option.bind_some, observe_append, hv, Option.bind_some]
  by_cases hne : t.post.bytes = []
  · exact ⟨g₁, by rw [hne]; rfl⟩
  · refine ⟨g, ?_⟩
    rw [observe_gap_settle ?_ hne, hsettle]
    intro hnum
    rw [hnum] at hsettle
    cases hsettle
    exact valueGuide_val hwf t.value h

end

namespace JsonConstraint

variable {table : TokenByteTable} {mode : JsonMode} {arena : SchemaArena} {vocabSize : Nat}
  {ts : List Nat} {c c' : JsonConstraint}

/-- Every byte has a token of its own that is no stop token. -/
def BytesCovered (table : TokenByteTable) (vocabSize : Nat) : Prop :=
  ∀ b : UInt8, ∃ id < vocabSize, table.bytes[id]? = some (some [b]) ∧ id ∉ table.stopIds

/-- Tokens that write one `ok` byte each. -/
def WritesBytes (table : TokenByteTable) (ok : UInt8 → Prop) (ts : List Nat) : Prop :=
  ∀ t ∈ ts, ∃ b, table.bytes[t]? = some (some [b]) ∧ ok b

/-- A walk through `ok` bytes is a run of their tokens. -/
theorem run_bytes (hbytes : BytesCovered c.table vocabSize) {ok : UInt8 → Prop} {m : JsonMachine} {g : GuideState} (s : List UInt8) (hs : ∀ b ∈ s, ok b)
    (h : c.walk c.machine c.guide s = some (m, g)) :
    ∃ us, Run c vocabSize us { c with machine := m, guide := g } ∧ WritesBytes c.table ok us := by
  induction s using List.reverseRecOn generalizing m g with
  | nil =>
      cases h
      exact ⟨[], .nil, by simp [WritesBytes]⟩
  | append_singleton s b ih =>
      rw [walk_append] at h
      obtain ⟨⟨m₁, g₁⟩, hwalk, hlast⟩ := Option.bind_eq_some_iff.1 h
      obtain ⟨us, hrun, hus⟩ := ih (fun b hb => hs b (by simp [hb])) hwalk
      obtain ⟨id, hid, hb, hstop⟩ := hbytes b
      have hwalk' : ({ c with machine := m₁, guide := g₁ } : JsonConstraint).walk m₁ g₁ [b] = some (m, g) := by
        rw [← hlast]
        exact walk_congr rfl rfl rfl _ _ _
      have hlegal : ({ c with machine := m₁, guide := g₁ } : JsonConstraint).legal (some [b]) = true := by
        simp only [legal, hwalk', Option.isSome_some]
        rfl
      have hok : (({ c with machine := m₁, guide := g₁ } : JsonConstraint).allowed vocabSize)[id]? = some true :=
        (allowed_iff _ _ _).2 ⟨hid, .inl (by simpa [hb] using hlegal)⟩
      have hadvance : ({ c with machine := m₁, guide := g₁ } : JsonConstraint).advance id =
          { c with machine := m, guide := g } := by
        have hno : ¬ c.table.stopIds.contains id := by simpa using hstop
        simp only [advance, if_neg hno, hb, Option.join_some, hwalk']
      refine ⟨us ++ [id], hadvance ▸ hrun.snoc hok, ?_⟩
      intro t ht
      rcases List.mem_append.1 ht with ht | ht
      · exact hus t ht
      · rw [List.mem_singleton.1 ht]
        exact ⟨b, hb, hs b (by simp)⟩

/-- A run that takes a step finds a token allowed where it starts. -/
theorem run_start {us : List Nat} (h : Run c vocabSize us c') :
    c' = c ∨ ∃ id : Nat, (c.allowed vocabSize)[id]? = some true := by
  induction h with
  | nil => exact .inl rfl
  | snoc h hok ih =>
      rcases ih with rfl | ih
      · exact .inr ⟨_, hok⟩
      · exact .inr ih

/-- Constrained decoding never gets stuck under a live root: some token is always allowed, and tokens
that write single `ok` bytes lead on to a state in which a stop token is allowed. -/
theorem never_stuck (schema : Json) (hschema : schema.Wf) (ok : UInt8 → Prop)
    (hok : ∀ b, isSpace b = false → ok b)
    (hlive : Live (SchemaArena.compile schema) ok guidedDepth (SchemaArena.compile schema).root)
    (hroot : mode = .object → RootGuided (SchemaArena.compile schema))
    (hbytes : BytesCovered table vocabSize) (hstop : ∃ stop ∈ table.stopIds, stop < vocabSize)
    (hrun : Run (new table mode (SchemaArena.compile schema)) vocabSize ts c) :
    (∃ id : Nat, (c.allowed vocabSize)[id]? = some true) ∧
      ∃ us c' stop, Run c vocabSize us c' ∧ WritesBytes table ok us ∧ stop ∈ table.stopIds ∧
        (c'.allowed vocabSize)[stop]? = some true := by
  have hwf := SchemaArena.compile_wf hschema
  have hreached := run_reached hrun
  obtain ⟨τ, ht, hg⟩ := reached_trace hreached
  obtain ⟨t, s, hprint, hoks, hall, hdepth, hroott, g, htakes⟩ :=
    exists_text hwf hok hlive hroot ⟨τ, ht, hg⟩
  obtain ⟨g', hobs⟩ := observe_text_of_takes hwf htakes
  obtain ⟨m, hwalk, hacc⟩ : ∃ m, (new table mode (SchemaArena.compile schema)).walk (.new mode) .new t.print =
      some (m, g') ∧ m.accepting := walk_text hall hdepth hroott hobs
  rw [hprint, walk_append, hreached.walk_eq, Option.bind_some] at hwalk
  have hwalk' : c.walk c.machine c.guide s = some (m, g') := by
    rw [← hwalk]
    exact walk_congr hreached.arena_eq hreached.root_eq hreached.mode_eq _ _ _
  obtain ⟨us, hrun', hus⟩ := run_bytes (hreached.table_eq ▸ hbytes) s hoks hwalk'
  rw [hreached.table_eq] at hus
  obtain ⟨stop, hmem, hlt⟩ := hstop
  have hallowed : (({ c with machine := m, guide := g' } : JsonConstraint).allowed vocabSize)[stop]? =
      some true := (allowed_iff _ _ _).2 ⟨hlt, .inr ⟨hacc, by rw [hreached.table_eq]; exact hmem⟩⟩
  refine ⟨?_, us, _, stop, hrun', hus, hmem, hallowed⟩
  rcases run_start hrun' with heq | hstart
  · rw [heq] at hallowed
    exact ⟨stop, hallowed⟩
  · exact hstart

/-- A vocabulary of the 256 bytes and a stop token. -/
def byteTable : TokenByteTable := ⟨(List.range 256).map (fun b => some [UInt8.ofNat b]) ++ [none], [256]⟩

theorem byteTable_covered : BytesCovered byteTable 257 := by
  intro b
  have hlt : b.toNat < 256 := b.toNat_lt
  refine ⟨b.toNat, by omega, ?_, by simp [byteTable]; omega⟩
  rw [byteTable, List.getElem?_append_left (by simpa using hlt)]
  simp [hlt]

end JsonConstraint

/-- `{"type":"object","properties":{"\"":{}},"required":["\""],"additionalProperties":false}` -/
def quoteKey : Json := .obj [(bytesOf "type", .str (bytesOf "object")),
  (bytesOf "properties", .obj [([0x22], .obj [])]), (bytesOf "required", .arr [.str [0x22]]),
  (bytesOf "additionalProperties", .bool false)]

theorem quoteKey_wf : quoteKey.Wf := by
  refine .obj _ (by decide) ?_
  simp only [List.forall_mem_cons]
  refine ⟨.str _, .obj _ (by simp) ?_, .arr _ ?_, .bool _, by simp⟩
  · simp only [List.mem_singleton, forall_eq]
    exact .obj _ (by simp) (by simp)
  · simp only [List.mem_singleton, forall_eq]
    exact .str _

/-- The property's name is a quotation mark, which no key spells raw: behind `{"` nothing is allowed. -/
theorem quoteKey_stuck :
    quoteKey.Wf ∧ JsonConstraint.BytesCovered JsonConstraint.byteTable 257 ∧
      ∃ c, JsonConstraint.Run (.new JsonConstraint.byteTable .object (.compile quoteKey)) 257 [0x7B, 0x22] c ∧
        ¬ ∃ id : Nat, (c.allowed 257)[id]? = some true := by
  have hrun : JsonConstraint.Run (.new JsonConstraint.byteTable .object (.compile quoteKey)) 257
      ([0x7B] ++ [0x22]) _ := .snoc (.snoc .nil (by decide +kernel)) (by decide +kernel)
  refine ⟨quoteKey_wf, JsonConstraint.byteTable_covered, _, hrun, ?_⟩
  have hnone : ∀ x ∈ (((JsonConstraint.new JsonConstraint.byteTable .object
      (.compile quoteKey)).advance 0x7B).advance 0x22).allowed 257, x = false := by decide +kernel
  rintro ⟨id, hid⟩
  exact absurd (hnone _ (List.mem_of_getElem? hid)) (by decide)

/-- `{"type":"object","properties":{"a":{"type":"integer"}},"required":["a"]}` -/
def integerKey : Json := .obj [(bytesOf "type", .str (bytesOf "object")),
  (bytesOf "properties", .obj [([0x61], .obj [(bytesOf "type", .str (bytesOf "integer"))])]),
  (bytesOf "required", .arr [.str [0x61]])]

theorem integerKey_wf : integerKey.Wf := by
  refine .obj _ (by decide) ?_
  simp only [List.forall_mem_cons]
  refine ⟨.str _, .obj _ (by simp) ?_, .arr _ ?_, by simp⟩
  · simp only [List.mem_singleton, forall_eq]
    exact .obj _ (by simp) (by simp [Json.Wf.str])
  · simp only [List.mem_singleton, forall_eq]
    exact .str _

theorem integerKey_compiled : SchemaArena.compile integerKey =
    ⟨[.any, .number true, .object [([0x61], 1)] 1#64 true]⟩ := rfl

theorem integerKey_live (ok : UInt8 → Prop) (hok : ok 0x61) :
    Live (.compile integerKey) ok guidedDepth (SchemaArena.compile integerKey).root := by
  rw [integerKey_compiled]
  have htyp : Typable [0x61] := by
    refine ⟨⟨[.plain 0x61 (by decide)], rfl⟩, fun h => ?_, by decide⟩
    have := h.length_le
    simp [spaceRunTooLong, maxWhitespaceRun] at this
  refine ⟨?_, ?_⟩
  · intro i p hp _
    cases i with
    | zero =>
        cases hp
        exact ⟨htyp, by simpa using hok⟩
    | succ i => simp at hp
  · intro p hp _
    rw [List.mem_singleton.1 hp]
    trivial

/-- From the start of `{"type":"object",…,"required":["a"]}` a stop token is reached without
whitespace. -/
theorem never_stuck_integerKey :
    (∃ id : Nat, ((JsonConstraint.new JsonConstraint.byteTable .object (.compile integerKey)).allowed 257)[id]? = some true) ∧
      ∃ us c' stop, JsonConstraint.Run (.new JsonConstraint.byteTable .object (.compile integerKey)) 257 us c' ∧
        JsonConstraint.WritesBytes JsonConstraint.byteTable (isSpace · = false) us ∧ stop ∈ JsonConstraint.byteTable.stopIds ∧
        (c'.allowed 257)[stop]? = some true :=
  JsonConstraint.never_stuck integerKey integerKey_wf (isSpace · = false) (fun _ h => h)
    (integerKey_live _ rfl) (fun _ => .inr ⟨_, _, _, rfl⟩) JsonConstraint.byteTable_covered
    ⟨256, by decide, by decide⟩ .nil

end Oxydllm.Constrain
