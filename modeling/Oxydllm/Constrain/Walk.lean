/-
# Oxydllm.Constrain.Walk — the guide's reading of a whole text, and runs of tokens.

The guide sees a text as the trace the automaton leaves, where the event that ends a number comes with
the byte after it. `valueGuide` is the reading the tree suggests: enter a value, read its content,
finish it. `observe_value` shows that the two agree once a number still open is settled, so everything
about the guide is proved by recursion on trees.

`walk` is the automaton's trace followed by the guide's reading of it (`walk_eq`), and the state after
a run of allowed tokens is the walk of the bytes they emit (`run_walk`).
-/
import Oxydllm.Constrain.Guide
import Oxydllm.Constrain.Complete

namespace Oxydllm.Constrain

open JsonText

namespace GuideState

section

variable (arena : SchemaArena) (root : NodeId)

theorem observe_nil (g : GuideState) : g.observe arena root [] = some g := rfl

theorem observe_cons (g : GuideState) (o : Obs) (τ : List Obs) :
    g.observe arena root (o :: τ) =
      (g.onByte arena root o.byte o.ev o.wasNum).bind fun g => g.observe arena root τ := rfl

theorem observe_append (g : GuideState) (τ₁ τ₂ : List Obs) :
    g.observe arena root (τ₁ ++ τ₂) =
      (g.observe arena root τ₁).bind fun g => g.observe arena root τ₂ := by
  simp [observe, List.foldlM_append, Option.bind_eq_bind]

/-! ## The reading of a tree -/

/-- A first byte of a value. -/
def enter (g : GuideState) (b : UInt8) : Option GuideState := g.enterValue arena (g.expected arena root) b

/-- Content bytes of a scalar or key. -/
def reads (g : GuideState) (w : List UInt8) : Option GuideState :=
  w.foldlM (fun g b => g.content arena b {}) g

/-- A number still open is ended. -/
def settle (num : Bool) (g : GuideState) : Option GuideState :=
  if num then g.finishScalar arena false 0 else some g

/-- A scalar whose last byte closes it. -/
def closedGuide (w : List UInt8) (g : GuideState) : Option GuideState :=
  match w with
  | [] => none
  | b :: w =>
      (g.enter arena root b).bind fun g =>
        (g.reads arena w.dropLast).bind fun g => g.finishScalar arena true (w.getLastD 0)

def numberGuide (w : List UInt8) (g : GuideState) : Option GuideState :=
  match w with
  | [] => none
  | b :: w =>
      (g.enter arena root b).bind fun g => g.reads arena w

def keyGuide (key : Str) (g : GuideState) : Option GuideState :=
  if g.hasAvailableKey arena then
    ((g.startKey arena).reads arena (Str.body key)).bind fun g => g.finishKey arena
  else none

/-- The comma of an object. -/
def commaGuide (g : GuideState) : Option GuideState :=
  if g.hasAvailableKey arena then some g else none

mutual

def valueGuide : Value → GuideState → Option GuideState
  | .lit l, g => g.closedGuide arena root l.print
  | .num n, g => (g.numberGuide arena root n.print).bind fun g => g.settle arena true
  | .str s, g => g.closedGuide arena root (Str.print s)
  | .emptyArr _, g => (g.enter arena root 0x5B).bind fun g => g.closeContainer arena
  | .arr items, g =>
      (g.enter arena root 0x5B).bind fun g =>
        (itemsGuide items g).bind fun g => g.closeContainer arena
  | .emptyObj _, g => (g.enter arena root 0x7B).bind fun g => g.closeContainer arena
  | .obj members, g =>
      (g.enter arena root 0x7B).bind fun g =>
        (membersGuide members g).bind fun g => g.closeContainer arena

def itemsGuide : Items → GuideState → Option GuideState
  | .one _ v _, g => valueGuide v g
  | .snoc init _ v _, g => (itemsGuide init g).bind fun g => valueGuide v g

def membersGuide : Members → GuideState → Option GuideState
  | .one _ key _ _ v _, g => (g.keyGuide arena key).bind fun g => valueGuide v g
  | .snoc init _ key _ _ v _, g =>
      (membersGuide init g).bind fun g => (g.commaGuide arena).bind fun g =>
        (g.keyGuide arena key).bind fun g => valueGuide v g

end

/-! ## Single observations -/

variable {arena} {root}

@[simp] theorem finishScalar_false (g : GuideState) (b b' : UInt8) :
    g.finishScalar arena false b = g.finishScalar arena false b' := by
  have h : scalarMayEnd arena g.val false b = scalarMayEnd arena g.val false b' := by
    unfold scalarMayEnd
    cases g.val <;> simp
  simp only [finishScalar, h]

theorem finishScalar_val {g g' : GuideState} {i : Bool} {b : UInt8}
    (h : g.finishScalar arena i b = some g') : g'.val = .free := by
  unfold finishScalar at h
  split at h
  · cases h; rfl
  · cases h

theorem content_free {g : GuideState} (h : g.val = .free) (b : UInt8) (ev : Events) :
    g.content arena b ev = some g := by
  simp [content, h]

/-- A byte without events is content. -/
theorem onByte_content (g : GuideState) (b : UInt8) (num : Bool) :
    g.onByte arena root b {} num = g.content arena b {} := by
  cases num <;> simp [onByte]

/-- A delimiter settles a number still open, then acts as it would behind any value. -/
theorem onByte_mark (g : GuideState) (b : UInt8) (num : Bool) (ev : Events) (hs : ev.scalarEnd = false) :
    g.onByte arena root b { ev with scalarEnd := num } num =
      (g.settle arena num).bind fun g => g.onByte arena root b ev false := by
  cases num with
  | true =>
      simp only [onByte, settle, Bool.and_self, if_true, hs, Bool.and_false, Bool.not_true,
        Bool.false_eq_true, if_false, Bool.not_false, Bool.and_true, Option.bind_some,
        finishScalar_false g b 0]
      cases hf : g.finishScalar arena false 0 with
      | none => rfl
      | some g' =>
          have hval := finishScalar_val hf
          simp [content_free hval]
  | false =>
      cases ev
      simp only at hs
      subst hs
      simp [settle]

theorem observe_one (g : GuideState) (o : Obs) :
    g.observe arena root [o] = g.onByte arena root o.byte o.ev o.wasNum := by
  simp [observe]

/-- Whitespace between tokens is not seen. -/
theorem observe_gap {g : GuideState} (h : g.val = .free) (bs : List UInt8) :
    g.observe arena root (gapTrace false bs) = some g := by
  induction bs with
  | nil => rfl
  | cons b bs ih => rw [gapTrace, observe_cons, onByte_content, content_free h, Option.bind_some, ih]

/-- Whitespace behind a value settles it. -/
theorem observe_gap_settle {g : GuideState} {num : Bool} (h : num = false → g.val = .free)
    {bs : List UInt8} (hbs : bs ≠ []) :
    g.observe arena root (gapTrace num bs) = g.settle arena num := by
  cases bs with
  | nil => exact absurd rfl hbs
  | cons b bs =>
      rw [gapTrace, observe_cons]
      simp only [onByte_mark g b num {} rfl]
      cases hset : g.settle arena num with
      | none => rfl
      | some g' =>
          have hval : g'.val = .free := by
            cases num with
            | true => exact finishScalar_val hset
            | false => cases hset; exact h rfl
          rw [Option.bind_some, onByte_content, content_free hval, Option.bind_some, observe_gap hval]

/-- A delimiter behind a value and its gap acts on the settled guide. -/
theorem observe_tail {g : GuideState} {num : Bool} (h : num = false → g.val = .free) (bs : List UInt8)
    (b : UInt8) (ev : Events) (hs : ev.scalarEnd = false) :
    g.observe arena root (gapTrace num bs ++ [mark (num && bs.isEmpty) b ev]) =
      (g.settle arena num).bind fun g => g.onByte arena root b ev false := by
  cases bs with
  | nil => simp only [gapTrace, List.nil_append, List.isEmpty_nil, Bool.and_true, observe_one, mark,
      onByte_mark g b num ev hs]
  | cons c bs =>
      rw [observe_append, observe_gap_settle h (by simp)]
      cases ev
      simp only at hs
      subst hs
      simp [observe_one, mark]

theorem reads_cons (g : GuideState) (b : UInt8) (w : List UInt8) :
    g.reads arena (b :: w) = (g.content arena b {}).bind fun g => g.reads arena w := rfl

theorem observe_content (g : GuideState) (w : List UInt8) :
    g.observe arena root (w.map Constrain.content) = g.reads arena w := by
  induction w generalizing g with
  | nil => rfl
  | cons b w ih =>
      rw [List.map_cons, observe_cons, Constrain.content, onByte_content, reads_cons]
      simp only [ih]

theorem onByte_start (g : GuideState) (b : UInt8) :
    g.onByte arena root b { valueStart := true } false = g.enter arena root b := by
  simp [onByte, enter]

theorem observe_number (g : GuideState) (w : List UInt8) (hw : w ≠ []) :
    g.observe arena root (numTrace w) = g.numberGuide arena root w := by
  have hrest : ∀ (g : GuideState) (w : List UInt8),
      g.observe arena root (w.map fun b => ⟨b, {}, true⟩) = g.reads arena w := by
    intro g w
    induction w generalizing g with
    | nil => rfl
    | cons b w ih =>
        rw [List.map_cons, observe_cons, onByte_content, reads_cons]
        simp only [ih]
  cases w with
  | nil => exact absurd rfl hw
  | cons b w =>
      rw [numTrace, observe_cons, onByte_start, numberGuide]
      simp only [hrest]

/-- The scalar constraints a string or a literal can be under. -/
def ScalarVal (val : ValCtx) : Prop := val = .free ∨ ∃ node alive pos, val = .enumScan node alive pos

theorem scalarVal_content {g g' : GuideState} {b : UInt8} {ev : Events} (h : ScalarVal g.val)
    (hc : g.content arena b ev = some g') : ScalarVal g'.val := by
  rcases h with h | ⟨node, alive, pos, h⟩
  · rw [content_free h] at hc
    cases hc
    exact .inl h
  · simp only [content, h] at hc
    split at hc
    · cases hc
      exact .inr ⟨_, _, _, h⟩
    · obtain ⟨-, hc⟩ := Option.ite_none_left_eq_some.1 hc
      cases hc
      exact .inr ⟨_, _, _, rfl⟩

theorem scalarVal_reads {g g' : GuideState} {w : List UInt8} (h : ScalarVal g.val)
    (hr : g.reads arena w = some g') : ScalarVal g'.val := by
  induction w generalizing g with
  | nil => cases hr; exact h
  | cons b w ih =>
      simp only [reads, List.foldlM_cons, Option.bind_eq_bind] at hr
      obtain ⟨g₁, hc, hr⟩ := Option.bind_eq_some_iff.1 hr
      exact ih (scalarVal_content h hc) hr

/-- The closing byte of a string or literal is not scanned before the scalar is finished. -/
theorem onByte_close {g : GuideState} (h : ScalarVal g.val) (b : UInt8) :
    g.onByte arena root b { scalarEnd := true } false = g.finishScalar arena true b := by
  have hc : g.content arena b { scalarEnd := true } = some g := by
    rcases h with h | ⟨node, alive, pos, h⟩
    · exact content_free h _ _
    · simp [content, h]
  simp [onByte, hc]

theorem enterValue_val {g g' : GuideState} {node : NodeId} {b : UInt8}
    (h : g.enterValue arena node b = some g') : startScalar arena node b = some g'.val := by
  obtain ⟨val, hval, rfl⟩ := Option.map_eq_some_iff.1 h
  rw [hval]
  split
  · split <;> rfl
  · rfl

theorem scalarVal_enter {g g' : GuideState} {b : UInt8} (hb : ¬ (b = 0x2D ∨ (0x30 ≤ b ∧ b ≤ 0x39)))
    (h : g.enter arena root b = some g') : ScalarVal g'.val := by
  have hval := enterValue_val h
  generalize g'.val = val at hval
  unfold startScalar at hval
  split at hval
  case h_8 =>
    simp only at hval
    split at hval
    · cases hval
    · cases hval; exact .inr ⟨_, _, _, rfl⟩
  case h_5 => simp [hb] at hval
  case h_1 => cases hval; exact .inl rfl
  all_goals
    split at hval
    · cases hval; exact .inl rfl
    · cases hval

/-- The trace of a string or literal: an opening byte, content and a closing byte. -/
theorem observe_closed (g : GuideState) {b c : UInt8} (hb : ¬ (b = 0x2D ∨ (0x30 ≤ b ∧ b ≤ 0x39)))
    (w : List UInt8) :
    g.observe arena root (⟨b, { valueStart := true }, false⟩ ::
        (w.map Constrain.content ++ [⟨c, { scalarEnd := true }, false⟩])) =
      g.closedGuide arena root (b :: (w ++ [c])) := by
  rw [observe_cons, onByte_start, closedGuide]
  cases he : g.enter arena root b with
  | none => rfl
  | some g₁ =>
      have hv := scalarVal_enter hb he
      simp only [Option.bind_some, List.dropLast_concat, observe_append, observe_content]
      cases hr : g₁.reads arena w with
      | none => rfl
      | some g₂ =>
          have hlast : (w ++ [c]).getLastD 0 = c := by simp
          rw [Option.bind_some, Option.bind_some, observe_one, onByte_close (scalarVal_reads hv hr),
            hlast]

/-! ## The trace of a tree is read as the tree -/

theorem scalar_head {v : Value} (h : v.isScalar) : ∃ b w, v.print = b :: w ∧ b ≠ 0x7B ∧ b ≠ 0x5B := by
  cases v with
  | lit l => cases l <;> exact ⟨_, _, rfl, by decide⟩
  | num n =>
      obtain ⟨b, w, s, hprint, hs, -⟩ := run_number n
      refine ⟨b, w, hprint, ?_⟩
      rcases JsonMachine.numStart_byte hs with ⟨rfl, -⟩ | ⟨rfl, -⟩ | ⟨hb, -⟩
      · decide
      · decide
      · grind
  | str s => exact ⟨_, _, rfl, by decide⟩
  | _ => cases h

/-- An opening bracket is taken by a node that takes everything or by a container node of its kind. -/
theorem startScalar_open (hwf : arena.Wf) {node : NodeId} {b : UInt8} {val : ValCtx}
    (hb : b = 0x7B ∨ b = 0x5B) (h : startScalar arena node b = some val) :
    val = .free ∧ (arena.node node = .any ∨
      (b = 0x7B ∧ ∃ props required additional, arena.node node = .object props required additional) ∨
        (b = 0x5B ∧ ∃ items, arena.node node = .array items)) := by
  have hnode := hwf.node_wf node
  unfold startScalar at h
  split at h
  case h_1 hany => cases h; exact ⟨rfl, .inl hany⟩
  case h_2 hobj =>
    obtain ⟨hb', h⟩ := Option.ite_none_right_eq_some.1 h
    cases h
    exact ⟨rfl, .inr (.inl ⟨hb', _, _, _, hobj⟩)⟩
  case h_3 harr =>
    obtain ⟨hb', h⟩ := Option.ite_none_right_eq_some.1 h
    cases h
    exact ⟨rfl, .inr (.inr ⟨hb', _, harr⟩)⟩
  case h_8 literals hlits =>
    rw [hlits] at hnode
    have hnone : starting literals b = 0#64 := by
      refine Mask.eq_zero_iff.2 fun j hj => ?_
      rw [starting, Mask.getLsbD_collect _ _ hj]
      cases hl : literals[j]? with
      | none => rfl
      | some l =>
          obtain ⟨v, hv, hprint, -⟩ := hnode.2.2 l (List.mem_of_getElem? hl)
          obtain ⟨c, w, hcw, h1, h2⟩ := scalar_head hv
          rw [← hprint, hcw]
          rcases hb with rfl | rfl <;> simp [h1, h2]
    simp [hnone] at h
  all_goals rcases hb with rfl | rfl <;> simp at h

/-- No scalar constraint is in force inside a container. -/
theorem enter_open (hwf : arena.Wf) {g g' : GuideState} {b : UInt8} (hb : b = 0x7B ∨ b = 0x5B)
    (h : g.enter arena root b = some g') : g'.val = .free :=
  (startScalar_open hwf hb (enterValue_val h)).1

theorem closeContainer_val {g g' : GuideState} (hg : g.val = .free)
    (h : g.closeContainer arena = some g') : g'.val = .free := by
  unfold closeContainer at h
  split at h
  · cases h; exact hg
  · split at h
    · cases h; exact hg
    · obtain ⟨-, h⟩ := Option.ite_none_right_eq_some.1 h
      cases h
      rfl

theorem closedGuide_val {g g' : GuideState} {w : List UInt8}
    (h : g.closedGuide arena root w = some g') : g'.val = .free := by
  cases w with
  | nil => cases h
  | cons b w =>
      obtain ⟨g₁, -, h⟩ := Option.bind_eq_some_iff.1 h
      obtain ⟨g₂, -, h⟩ := Option.bind_eq_some_iff.1 h
      exact finishScalar_val h

theorem finishKey_val {g g' : GuideState} (h : g.finishKey arena = some g') : g'.val = .free := by
  unfold finishKey at h
  split at h
  · split at h
    · cases h; rfl
    · split at h
      · split at h
        · cases h; rfl
        · split at h
          · cases h; rfl
          · cases h
      · cases h; rfl
  · cases h; rfl

mutual

/-- Behind a value no scalar constraint is in force. -/
theorem valueGuide_val (hwf : arena.Wf) : ∀ (v : Value) {g g' : GuideState},
    valueGuide arena root v g = some g' → g'.val = .free
  | .lit _, _, _, h => closedGuide_val h
  | .str _, _, _, h => by
      rw [valueGuide] at h
      exact closedGuide_val h
  | .num _, _, _, h => by
      obtain ⟨g₁, -, h⟩ := Option.bind_eq_some_iff.1 h
      exact finishScalar_val h
  | .emptyArr _, _, _, h => by
      obtain ⟨g₁, he, h⟩ := Option.bind_eq_some_iff.1 h
      exact closeContainer_val (enter_open hwf (by simp) he) h
  | .emptyObj _, _, _, h => by
      obtain ⟨g₁, he, h⟩ := Option.bind_eq_some_iff.1 h
      exact closeContainer_val (enter_open hwf (by simp) he) h
  | .arr items, _, _, h => by
      obtain ⟨g₁, -, h⟩ := Option.bind_eq_some_iff.1 h
      obtain ⟨g₂, hi, h⟩ := Option.bind_eq_some_iff.1 h
      exact closeContainer_val (itemsGuide_val hwf items hi) h
  | .obj members, _, _, h => by
      obtain ⟨g₁, -, h⟩ := Option.bind_eq_some_iff.1 h
      obtain ⟨g₂, hi, h⟩ := Option.bind_eq_some_iff.1 h
      exact closeContainer_val (membersGuide_val hwf members hi) h

theorem itemsGuide_val (hwf : arena.Wf) : ∀ (items : Items) {g g' : GuideState},
    itemsGuide arena root items g = some g' → g'.val = .free
  | .one _ v _, _, _, h => valueGuide_val hwf v h
  | .snoc init _ v _, _, _, h => by
      obtain ⟨g₁, -, h⟩ := Option.bind_eq_some_iff.1 h
      exact valueGuide_val hwf v h

theorem membersGuide_val (hwf : arena.Wf) : ∀ (members : Members) {g g' : GuideState},
    membersGuide arena root members g = some g' → g'.val = .free
  | .one _ key _ _ v _, _, _, h => by
      obtain ⟨g₁, -, h⟩ := Option.bind_eq_some_iff.1 h
      exact valueGuide_val hwf v h
  | .snoc init _ key _ _ v _, _, _, h => by
      obtain ⟨g₁, -, h⟩ := Option.bind_eq_some_iff.1 h
      obtain ⟨g₂, -, h⟩ := Option.bind_eq_some_iff.1 h
      obtain ⟨g₃, -, h⟩ := Option.bind_eq_some_iff.1 h
      exact valueGuide_val hwf v h

end

/-- Reading a value's trace and settling it is `valueGuide`. -/
def Observes (arena : SchemaArena) (root : NodeId) (v : Value) : Prop :=
  ∀ g : GuideState, g.val = .free →
    (g.observe arena root (valueTrace v)).bind (settle arena v.isNum) = valueGuide arena root v g

/-- A value, the gap behind it and the delimiter that follows. -/
theorem observe_value_mark (hwf : arena.Wf) {v : Value} (hv : Observes arena root v) {g : GuideState}
    (hg : g.val = .free) (g₂ : Gap) (b : UInt8) (ev : Events) (hs : ev.scalarEnd = false) :
    g.observe arena root (valueTrace v ++ (gapTrace v.isNum g₂.bytes ++ [mark (pending v g₂) b ev])) =
      (valueGuide arena root v g).bind fun g => g.onByte arena root b ev false := by
  rw [observe_append, ← hv g hg]
  cases ho : g.observe arena root (valueTrace v) with
  | none => rfl
  | some g₁ =>
      have hfree : v.isNum = false → g₁.val = .free := by
        intro hnum
        have := hv g hg
        rw [ho, hnum] at this
        exact valueGuide_val hwf v this.symm
      rw [Option.bind_some, Option.bind_some, pending, observe_tail hfree g₂.bytes b ev hs]

theorem observe_spaced_mark (hwf : arena.Wf) {v : Value} (hv : Observes arena root v) {g : GuideState}
    (hg : g.val = .free) (g₁ g₂ : Gap) (b : UInt8) (ev : Events) (hs : ev.scalarEnd = false) :
    g.observe arena root ((gapTrace false g₁.bytes ++ (valueTrace v ++ gapTrace v.isNum g₂.bytes)) ++
        [mark (pending v g₂) b ev]) =
      (valueGuide arena root v g).bind fun g => g.onByte arena root b ev false := by
  rw [List.append_assoc, observe_append, observe_gap hg, Option.bind_some, List.append_assoc,
    observe_value_mark hwf hv hg g₂ b ev hs]

theorem reads_key {g g' : GuideState} {w : List UInt8}
    (hval : g.val = .free ∨ ∃ alive pos any, g.val = .keyScan alive pos any)
    (h : g.reads arena w = some g') :
    g'.val = .free ∨ ∃ alive pos any, g'.val = .keyScan alive pos any := by
  induction w generalizing g with
  | nil => cases h; exact hval
  | cons b w ih =>
      rw [reads_cons] at h
      obtain ⟨g₁, hc, h⟩ := Option.bind_eq_some_iff.1 h
      refine ih ?_ h
      rcases hval with hval | ⟨alive, pos, any, hval⟩
      · rw [content_free hval] at hc
        cases hc
        exact .inl hval
      · simp only [content, hval, Bool.false_eq_true, if_false] at hc
        obtain ⟨-, hc⟩ := Option.ite_none_left_eq_some.1 hc
        cases hc
        exact .inr ⟨_, _, _, rfl⟩

theorem startKey_val (g : GuideState) :
    (g.startKey arena).val = .free ∨ ∃ alive pos any, (g.startKey arena).val = .keyScan alive pos any := by
  unfold startKey
  split
  · exact .inl rfl
  · split
    · exact .inl rfl
    · split
      · exact .inr ⟨_, _, _, rfl⟩
      · exact .inl rfl

theorem observe_key (g : GuideState) (key : Str) :
    g.observe arena root (keyTrace key) = g.keyGuide arena key := by
  have hstart : g.onByte arena root 0x22 { keyStart := true } false =
      if g.hasAvailableKey arena then some (g.startKey arena) else none := by
    simp [onByte]
  rw [keyTrace, observe_cons, hstart, keyGuide]
  split
  · rw [Option.bind_some, observe_append, observe_content]
    cases hr : (g.startKey arena).reads arena (Str.body key) with
    | none => rfl
    | some g₁ =>
        have hc : g₁.content arena 0x22 { keyEnd := true } = some g₁ := by
          rcases reads_key (startKey_val g) hr with h | ⟨alive, pos, any, h⟩
          · exact content_free h _ _
          · simp [content, h]
        rw [Option.bind_some, Option.bind_some, observe_one]
        simp [onByte, hc]
  · rfl

theorem keyGuide_val {g g' : GuideState} {key : Str} (h : g.keyGuide arena key = some g') :
    g'.val = .free := by
  unfold keyGuide at h
  split at h
  · obtain ⟨g₄, -, hf⟩ := Option.bind_eq_some_iff.1 h
    exact finishKey_val hf
  · cases h

/-- A key, its colon and the gaps around them. -/
theorem observe_keyed {g : GuideState} (hg : g.val = .free) (g₁ : Gap) (key : Str) (g₂ : Gap)
    (τ : List Obs) :
    g.observe arena root (gapTrace false g₁.bytes ++ (keyTrace key ++ (gapTrace false g₂.bytes ++
        Constrain.content 0x3A :: τ))) =
      (g.keyGuide arena key).bind fun g => g.observe arena root τ := by
  rw [observe_append, observe_gap hg, Option.bind_some, observe_append, observe_key]
  cases hk : g.keyGuide arena key with
  | none => rfl
  | some g₃ =>
      have hval := keyGuide_val hk
      rw [Option.bind_some, observe_append, observe_gap hval, Option.bind_some, observe_cons]
      simp [Constrain.content, onByte_content, content_free hval]

/-- One member and the delimiter that follows. -/
theorem observe_member (hwf : arena.Wf) {v : Value} (hv : Observes arena root v) {g : GuideState}
    (hg : g.val = .free) (g₁ : Gap) (key : Str) (g₂ g₃ g₄ : Gap) (b : UInt8) (ev : Events)
    (hs : ev.scalarEnd = false) :
    g.observe arena root (membersTrace (.one g₁ key g₂ g₃ v g₄) ++ [mark (pending v g₄) b ev]) =
      (membersGuide arena root (.one g₁ key g₂ g₃ v g₄) g).bind fun g => g.onByte arena root b ev false := by
  have hsplit : membersTrace (.one g₁ key g₂ g₃ v g₄) ++ [mark (pending v g₄) b ev] =
      gapTrace false g₁.bytes ++ (keyTrace key ++ (gapTrace false g₂.bytes ++
        Constrain.content 0x3A :: ((gapTrace false g₃.bytes ++ (valueTrace v ++ gapTrace v.isNum g₄.bytes)) ++
          [mark (pending v g₄) b ev]))) := by
    simp [membersTrace]
  rw [hsplit, observe_keyed hg, membersGuide]
  cases hk : g.keyGuide arena key with
  | none => rfl
  | some g' =>
      rw [Option.bind_some, Option.bind_some, observe_spaced_mark hwf hv (keyGuide_val hk) g₃ g₄ b ev hs]

theorem onByte_comma {g : GuideState} (hg : g.val = .free) :
    g.onByte arena root 0x2C { objComma := true } false = g.commaGuide arena := by
  unfold commaGuide
  cases h : g.hasAvailableKey arena <;> simp [onByte, h, content_free hg]

theorem onByte_arrClose {g : GuideState} (hg : g.val = .free) :
    g.onByte arena root 0x5D { arrClose := true } false = g.closeContainer arena := by
  simp [onByte, content_free hg]

theorem onByte_objClose {g : GuideState} (hg : g.val = .free) :
    g.onByte arena root 0x7D { objClose := true } false = g.closeContainer arena := by
  simp [onByte, content_free hg]

theorem onByte_arrOpen (g : GuideState) :
    g.onByte arena root 0x5B { valueStart := true, arrOpen := true } false = g.enter arena root 0x5B := by
  simp [onByte, enter]

theorem onByte_objOpen (g : GuideState) :
    g.onByte arena root 0x7B { valueStart := true, objOpen := true } false = g.enter arena root 0x7B := by
  simp [onByte, enter]

@[simp] theorem bind_settle_false (x : Option GuideState) : x.bind (settle arena false) = x := by
  cases x <;> rfl

mutual

theorem observe_value (hwf : arena.Wf) : ∀ v : Value, Observes arena root v
  | .lit l => by
      intro g _
      have hclosed : g.observe arena root (litTrace l) = g.closedGuide arena root l.print := by
        cases l with
        | true => exact observe_closed g (by decide) [0x72, 0x75]
        | false => exact observe_closed g (by decide) [0x61, 0x6C, 0x73]
        | null => exact observe_closed g (by decide) [0x75, 0x6C]
      simp [valueTrace, Value.isNum, valueGuide, hclosed]
  | .num n => by
      intro g _
      obtain ⟨b, w, s, hprint, -, -⟩ := run_number n
      simp [valueTrace, Value.isNum, valueGuide, observe_number g n.print (by simp [hprint])]
  | .str s => by
      intro g _
      have hclosed : g.observe arena root (strTrace s) = g.closedGuide arena root (Str.print s) :=
        observe_closed g (by decide) (Str.body s)
      simp [valueTrace, Value.isNum, valueGuide, hclosed]
  | .emptyArr gap => by
      intro g _
      simp only [valueTrace, Value.isNum, valueGuide, observe_cons, onByte_arrOpen]
      cases he : g.enter arena root 0x5B with
      | none => rfl
      | some g₁ =>
          simp [mark, onByte_arrClose (enter_open hwf (.inr rfl) he), observe_nil, settle]
  | .arr items => by
      intro g _
      simp only [valueTrace, Value.isNum, valueGuide, observe_cons, onByte_arrOpen]
      cases he : g.enter arena root 0x5B with
      | none => rfl
      | some g₁ =>
          simp only [Option.bind_some, observe_items hwf items (enter_open hwf (.inr rfl) he) 0x5D { arrClose := true } rfl]
          cases hi : itemsGuide arena root items g₁ with
          | none => rfl
          | some g₂ => simp [onByte_arrClose (itemsGuide_val hwf items hi), settle]
  | .emptyObj gap => by
      intro g _
      simp only [valueTrace, Value.isNum, valueGuide, observe_cons, onByte_objOpen]
      cases he : g.enter arena root 0x7B with
      | none => rfl
      | some g₁ =>
          have hval := enter_open hwf (.inl rfl) he
          simp [observe_append, observe_gap hval, mark, observe_cons, onByte_objClose hval,
            observe_nil, settle]
  | .obj members => by
      intro g _
      simp only [valueTrace, Value.isNum, valueGuide, observe_cons, onByte_objOpen]
      cases he : g.enter arena root 0x7B with
      | none => rfl
      | some g₁ =>
          simp only [Option.bind_some,
            observe_members hwf members (enter_open hwf (.inl rfl) he) 0x7D { objClose := true } rfl]
          cases hi : membersGuide arena root members g₁ with
          | none => rfl
          | some g₂ => simp [onByte_objClose (membersGuide_val hwf members hi), settle]

theorem observe_items (hwf : arena.Wf) : ∀ (items : Items) {g : GuideState}, g.val = .free →
    ∀ (b : UInt8) (ev : Events), ev.scalarEnd = false →
      g.observe arena root (itemsTrace items ++ [mark (itemsPending items) b ev]) =
        (itemsGuide arena root items g).bind fun g => g.onByte arena root b ev false
  | .one g₁ v g₂, g, hg, b, ev, hs => by
      rw [itemsTrace, itemsPending, itemsGuide, observe_spaced_mark hwf (observe_value hwf v) hg g₁ g₂ b ev hs]
  | .snoc init g₁ v g₂, g, hg, b, ev, hs => by
      have hsplit : itemsTrace (.snoc init g₁ v g₂) ++ [mark (itemsPending (.snoc init g₁ v g₂)) b ev] =
          (itemsTrace init ++ [mark (itemsPending init) 0x2C {}]) ++
            ((gapTrace false g₁.bytes ++ (valueTrace v ++ gapTrace v.isNum g₂.bytes)) ++
              [mark (pending v g₂) b ev]) := by
        simp [itemsTrace, itemsPending]
      rw [hsplit, observe_append, observe_items hwf init hg 0x2C {} rfl, itemsGuide]
      cases hi : itemsGuide arena root init g with
      | none => rfl
      | some g' =>
          have hval := itemsGuide_val hwf init hi
          rw [Option.bind_some, Option.bind_some, onByte_content, content_free hval, Option.bind_some,
            observe_spaced_mark hwf (observe_value hwf v) hval g₁ g₂ b ev hs]

theorem observe_members (hwf : arena.Wf) : ∀ (members : Members) {g : GuideState}, g.val = .free →
    ∀ (b : UInt8) (ev : Events), ev.scalarEnd = false →
      g.observe arena root (membersTrace members ++ [mark (membersPending members) b ev]) =
        (membersGuide arena root members g).bind fun g => g.onByte arena root b ev false
  | .one g₁ key g₂ g₃ v g₄, g, hg, b, ev, hs =>
      observe_member hwf (observe_value hwf v) hg g₁ key g₂ g₃ g₄ b ev hs
  | .snoc init g₁ key g₂ g₃ v g₄, g, hg, b, ev, hs => by
      have hsplit : membersTrace (.snoc init g₁ key g₂ g₃ v g₄) ++
            [mark (membersPending (.snoc init g₁ key g₂ g₃ v g₄)) b ev] =
          (membersTrace init ++ [mark (membersPending init) 0x2C { objComma := true }]) ++
            (membersTrace (.one g₁ key g₂ g₃ v g₄) ++ [mark (pending v g₄) b ev]) := by
        simp [membersTrace, membersPending]
      rw [hsplit, observe_append, observe_members hwf init hg 0x2C { objComma := true } rfl, membersGuide]
      cases hi : membersGuide arena root init g with
      | none => rfl
      | some g' =>
          have hval := membersGuide_val hwf init hi
          rw [Option.bind_some, Option.bind_some, onByte_comma hval]
          unfold commaGuide
          split
          · exact observe_member hwf (observe_value hwf v) hval g₁ key g₂ g₃ g₄ b ev hs
          · rfl

end

end

end GuideState

/-! ## Walks and runs -/

namespace JsonConstraint

theorem walk_eq (c : JsonConstraint) (m : JsonMachine) (g : GuideState) (w : List UInt8) :
    c.walk m g w = (m.trace c.mode w).bind fun p =>
      (g.observe c.arena c.root p.1).map fun g' => (p.2, g') := by
  induction w generalizing m g with
  | nil => rfl
  | cons b w ih =>
      simp only [walk, JsonMachine.trace]
      cases m.stepEv b c.mode with
      | none => rfl
      | some p =>
          simp only [Option.bind_some, ih]
          cases hb : g.onByte c.arena c.root b p.2 m.inNumber with
          | none =>
              cases p.1.trace c.mode w with
              | none => rfl
              | some q => simp [GuideState.observe_cons, hb]
          | some g' =>
              cases p.1.trace c.mode w with
              | none => rfl
              | some q => simp [GuideState.observe_cons, hb]

theorem walk_append (c : JsonConstraint) (m : JsonMachine) (g : GuideState) (w₁ w₂ : List UInt8) :
    c.walk m g (w₁ ++ w₂) = (c.walk m g w₁).bind fun p => c.walk p.1 p.2 w₂ := by
  induction w₁ generalizing m g with
  | nil => rfl
  | cons b w₁ ih =>
      simp only [List.cons_append, walk]
      cases m.stepEv b c.mode with
      | none => rfl
      | some p =>
          simp only [Option.bind_some]
          cases g.onByte c.arena c.root b p.2 m.inNumber with
          | none => rfl
          | some g' => simp [ih]

/-- The walk reads the arena, its root and the mode only. -/
theorem walk_congr {c c' : JsonConstraint} (ha : c.arena = c'.arena) (hr : c.root = c'.root)
    (hm : c.mode = c'.mode) (m : JsonMachine) (g : GuideState) (w : List UInt8) :
    c.walk m g w = c'.walk m g w := by
  rw [walk_eq, walk_eq, ha, hr, hm]

/-- A run of tokens, each allowed when it is chosen. -/
inductive Run (c₀ : JsonConstraint) (vocabSize : Nat) : List Nat → JsonConstraint → Prop where
  | nil : Run c₀ vocabSize [] c₀
  | snoc {ts c token} (h : Run c₀ vocabSize ts c) (hok : (c.allowed vocabSize)[token]? = some true) :
      Run c₀ vocabSize (ts ++ [token]) (c.advance token)

theorem allowed_iff (c : JsonConstraint) (vocabSize token : Nat) :
    (c.allowed vocabSize)[token]? = some true ↔ token < vocabSize ∧
      (c.legal (c.table.bytes[token]?).join ∨ (c.machine.accepting ∧ token ∈ c.table.stopIds)) := by
  unfold allowed
  by_cases h : token < vocabSize <;> simp [h]

end JsonConstraint

namespace TokenByteTable

/-- The bytes a token adds to the output; a stop token ends the output and adds none. -/
def emit (table : TokenByteTable) (token : Nat) : List UInt8 :=
  if table.stopIds.contains token then [] else ((table.bytes[token]?).join).getD []

/-- The bytes a run of tokens emits. -/
def emitted (table : TokenByteTable) (ts : List Nat) : List UInt8 := ts.flatMap table.emit

/-- A stop token is written with no bytes. -/
def Silent (table : TokenByteTable) (token : Nat) : Prop := (table.bytes[token]?).join = none

/-- A vocabulary of one text and a stop token. -/
def single (w : List UInt8) : TokenByteTable := ⟨[some w, none], [1]⟩

end TokenByteTable

namespace JsonConstraint

variable {table : TokenByteTable} {mode : JsonMode} {arena : SchemaArena} {vocabSize : Nat}
  {ts : List Nat} {c : JsonConstraint}

/-- The state after a run is the walk of the bytes it emits. -/
structure Reached (table : TokenByteTable) (mode : JsonMode) (arena : SchemaArena) (w : List UInt8)
    (c : JsonConstraint) : Prop where
  table_eq : c.table = table
  arena_eq : c.arena = arena
  root_eq : c.root = arena.root
  mode_eq : c.mode = mode
  walk_eq : (new table mode arena).walk (.new mode) .new w = some (c.machine, c.guide)

theorem reached_new : Reached table mode arena [] (new table mode arena) := ⟨rfl, rfl, rfl, rfl, rfl⟩

/-- One allowed token extends the walk by its bytes. -/
theorem reached_advance {w : List UInt8} {token : Nat} (h : Reached table mode arena w c)
    (hok : (c.allowed vocabSize)[token]? = some true) :
    Reached table mode arena (w ++ table.emit token) (c.advance token) := by
  obtain ⟨-, hlegal⟩ := (allowed_iff c vocabSize token).1 hok
  unfold TokenByteTable.emit advance
  rw [h.table_eq] at hlegal ⊢
  by_cases hstop : table.stopIds.contains token
  · rw [if_pos hstop, if_pos hstop, List.append_nil]
    exact h
  · have hmem : token ∉ table.stopIds := by simpa using hstop
    rw [if_neg hstop, if_neg hstop]
    simp only [hmem, and_false, or_false] at hlegal
    cases hb : (table.bytes[token]?).join with
    | none => simp [hb, legal] at hlegal
    | some bytes =>
        simp only [hb, legal, Bool.and_eq_true, Option.isSome_iff_exists] at hlegal
        obtain ⟨-, ⟨m, g⟩, hwalk⟩ := hlegal
        have hwalk' : (new table mode arena).walk c.machine c.guide bytes = some (m, g) := by
          rw [← hwalk]
          exact walk_congr h.arena_eq.symm h.root_eq.symm h.mode_eq.symm _ _ _
        simp only [hwalk, Option.getD_some]
        exact ⟨rfl, h.arena_eq, h.root_eq, h.mode_eq, by rw [walk_append, h.walk_eq, Option.bind_some, hwalk']⟩

theorem run_reached (h : Run (new table mode arena) vocabSize ts c) :
    Reached table mode arena (table.emitted ts) c := by
  induction h with
  | nil => exact reached_new
  | snoc h hok ih =>
      have := reached_advance ih hok
      simpa [TokenByteTable.emitted] using this

/-- A silent stop token is allowed only when the automaton accepts. -/
theorem accepting_of_stop {w : List UInt8} {stop : Nat} (h : Reached table mode arena w c)
    (hsilent : table.Silent stop) (hok : (c.allowed vocabSize)[stop]? = some true) :
    c.machine.accepting := by
  obtain ⟨-, hlegal | ⟨hacc, -⟩⟩ := (allowed_iff c vocabSize stop).1 hok
  · rw [h.table_eq, show (table.bytes[stop]?).join = none from hsilent] at hlegal
    cases hlegal
  · exact hacc

/-! ## The text a run has emitted -/

theorem reached_trace {w : List UInt8} (h : Reached table mode arena w c) :
    ∃ τ, (JsonMachine.new mode).trace mode w = some (τ, c.machine) ∧
      GuideState.new.observe arena arena.root τ = some c.guide := by
  have hwalk := h.walk_eq
  rw [walk_eq] at hwalk
  obtain ⟨⟨τ, m⟩, ht, hg⟩ := Option.bind_eq_some_iff.1 hwalk
  obtain ⟨g, hg, heq⟩ := Option.map_eq_some_iff.1 hg
  cases heq
  exact ⟨τ, ht, hg⟩

theorem rootOk_of_trace {t : Text} {p : List Obs × JsonMachine}
    (ht : (JsonMachine.new mode).trace mode t.print = some p) : RootOk mode [] t.value := by
  by_contra hroot
  have hpre := (gap_piece mode [] S.gap_value 0 t.pre.bytes t.pre.space).congr (gapCost_false t.pre)
  have hval : Piece mode ⟨[], .value, 0 + t.pre.bytes.length⟩ t.value.print False []
      ⟨[], .value, 0⟩ := rootOk_piece (.inl rfl) hroot
  rw [Text.print, JsonMachine.trace_append] at ht
  obtain ⟨p₁, ht₁, -⟩ := Option.bind_eq_some_iff.1 ht
  exact ((hpre.append hval).needs _ p₁ rfl ht₁).2

/-- The emitted text is readable, and the guide has read its trace. -/
theorem reached_text {t : Text} (h : Reached table mode arena t.print c) :
    (t.All readable ∧ t.value.depth ≤ maxDepth) ∧ GuideState.new.observe arena arena.root (textTrace t) = some c.guide := by
  obtain ⟨τ, ht, hg⟩ := reached_trace h
  have hpiece := text_piece t (rootOk_of_trace ht)
  have hread := hpiece.needs _ _ rfl ht
  obtain ⟨m, ht', -⟩ := hpiece.reads hread (.new mode) rfl
  rw [ht] at ht'
  cases ht'
  exact ⟨hread, hg⟩

/-- A stop token is silent, so where it is allowed a whole text has been emitted. -/
theorem text_of_stop {w : List UInt8} {stop : Nat} (h : Reached table mode arena w c)
    (hsilent : table.Silent stop) (hok : (c.allowed vocabSize)[stop]? = some true) :
    ∃ t : Text, t.print = w ∧ (mode = .object → t.value.isObject) := by
  obtain ⟨τ, ht, -⟩ := reached_trace h
  have hrun : (JsonMachine.new mode).run mode w = some c.machine := by
    rw [JsonMachine.run_eq_trace, ht]
    rfl
  obtain ⟨t, hprint, -, hroot⟩ := shape_accepting (shape_run hrun) (accepting_of_stop h hsilent hok)
  exact ⟨t, hprint, hroot⟩

/-- A text of one token, walked to acceptance, may be followed by the stop token. -/
theorem run_single {w : List UInt8} {m : JsonMachine} {g : GuideState} (hw : w ≠ [])
    (hwalk : (new (.single w) mode arena).walk (.new mode) .new w = some (m, g)) (hacc : m.accepting) :
    Run (new (.single w) mode arena) 2 [0] ((new (.single w) mode arena).advance 0) ∧
      (((new (.single w) mode arena).advance 0).allowed 2)[1]? = some true ∧
      (TokenByteTable.single w).emitted [0] = w := by
  have hlegal : (new (.single w) mode arena).legal (some w) = true := by
    have hsome : ((new (.single w) mode arena).walk (.new mode) .new w).isSome = true := by rw [hwalk]; rfl
    simp only [legal, Bool.and_eq_true, Bool.not_eq_true', List.isEmpty_eq_false_iff]
    exact ⟨hw, hsome⟩
  have hadvance : (new (.single w) mode arena).advance 0 =
      { new (.single w) mode arena with machine := m, guide := g } := by
    have hwalk' : (new (.single w) mode arena).walk (new (.single w) mode arena).machine
        (new (.single w) mode arena).guide w = some (m, g) := hwalk
    simp [advance, new, TokenByteTable.single] at hwalk' ⊢
    rw [hwalk']
  refine ⟨.snoc .nil ?_, ?_, ?_⟩
  · exact (allowed_iff _ _ _).2 ⟨by decide, .inl hlegal⟩
  · rw [hadvance]
    exact (allowed_iff _ _ _).2 ⟨by decide, .inr ⟨hacc, by simp [new, TokenByteTable.single]⟩⟩
  · simp [TokenByteTable.emitted, TokenByteTable.emit, TokenByteTable.single]

/-- A text that automaton and guide both read is walked to acceptance. -/
theorem walk_text {t : Text} {g : GuideState} (hread : t.All readable) (hdepth : t.value.depth ≤ maxDepth)
    (hroot : mode = .object → t.value.isObject)
    (hobs : GuideState.new.observe arena arena.root (textTrace t) = some g) :
    ∃ m, (new table mode arena).walk (.new mode) .new t.print = some (m, g) ∧ m.accepting := by
  obtain ⟨m, ht, hm⟩ := (text_piece t fun h _ => hroot h).reads ⟨hread, hdepth⟩ (.new mode) rfl
  refine ⟨m, ?_, accepting_of_tail hm⟩
  rw [walk_eq]
  show ((JsonMachine.new mode).trace mode t.print).bind _ = _
  rw [ht, Option.bind_some]
  show Option.map _ (GuideState.new.observe arena arena.root (textTrace t)) = _
  rw [hobs]
  rfl

/-- The guide's reading of a text, up to the number that may still be open at its end. -/
theorem observe_text (hwf : arena.Wf) {t : Text} {g : GuideState}
    (h : GuideState.new.observe arena arena.root (textTrace t) = some g) :
    (t.value.isNum = false ∨ t.post.bytes ≠ [] →
      ∃ g', GuideState.valueGuide arena arena.root t.value .new = some g') ∧
    ∃ g', GuideState.new.observe arena arena.root (valueTrace t.value) = some g' := by
  have hnew : GuideState.new.val = .free := rfl
  rw [textTrace, GuideState.observe_append, GuideState.observe_gap hnew, Option.bind_some,
    GuideState.observe_append] at h
  obtain ⟨g₁, hv, hpost⟩ := Option.bind_eq_some_iff.1 h
  have hobserves : GuideState.Observes arena arena.root t.value := GuideState.observe_value hwf t.value
  have hobs := hobserves .new hnew
  rw [hv, Option.bind_some] at hobs
  refine ⟨fun hend => ?_, g₁, hv⟩
  rw [← hobs]
  by_cases hnum : t.value.isNum
  · have hne : t.post.bytes ≠ [] := by simpa [hnum] using hend
    rw [GuideState.observe_gap_settle (by simp [hnum]) hne] at hpost
    exact ⟨g, hpost⟩
  · rw [Bool.not_eq_true] at hnum
    exact ⟨g₁, by rw [hnum]; rfl⟩

end JsonConstraint

end Oxydllm.Constrain
