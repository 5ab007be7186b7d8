/-
# Oxydllm.Constrain.Frame — what a value leaves of the guide's state.

Reading a value leaves the levels below it as they were and the innermost one up to its pending
property; reading elements or members may change the innermost level's emitted set too. Beyond
`GUIDED_DEPTH` levels, containers are only counted, and the count is back where it was when the value
ends.
-/
import Oxydllm.Constrain.Scan

namespace Oxydllm.Constrain

open JsonText

/-- `g'` has the levels of `g`, the innermost one changed at most in its pending property and, within
the guided depth, its emitted set. -/
structure Keeps (g g' : GuideState) : Prop where
  overflow_eq : g'.overflow = g.overflow
  levels_eq : ∃ f : Level → Level,
    (∀ l, (f l).node = l.node ∧ (0 < g.overflow → (f l).emitted = l.emitted)) ∧
      g'.levels = GuideState.mapTop f g.levels

/-- As `Keeps`, with the emitted set unchanged. -/
structure KeepsEmitted (g g' : GuideState) : Prop where
  overflow_eq : g'.overflow = g.overflow
  levels_eq : ∃ f : Level → Level, (∀ l, (f l).node = l.node ∧ (f l).emitted = l.emitted) ∧
    g'.levels = GuideState.mapTop f g.levels

namespace GuideState

@[simp] theorem mapTop_id (ls : List Level) : mapTop id ls = ls := by cases ls <;> rfl

@[simp] theorem mapTop_mapTop (f f' : Level → Level) (ls : List Level) :
    mapTop f' (mapTop f ls) = mapTop (f' ∘ f) ls := by cases ls <;> rfl

@[simp] theorem mapTop_length (f : Level → Level) (ls : List Level) : (mapTop f ls).length = ls.length := by
  cases ls <;> rfl

end GuideState

open GuideState

theorem KeepsEmitted.keeps {g g' : GuideState} (h : KeepsEmitted g g') : Keeps g g' := by
  obtain ⟨hov, f, hf, hl⟩ := h
  exact ⟨hov, f, fun l => ⟨(hf l).1, fun _ => (hf l).2⟩, hl⟩

/-- Beyond the guided depth nothing is recorded. -/
theorem Keeps.keepsEmitted {g g' : GuideState} (h : Keeps g g') (hov : 0 < g.overflow) :
    KeepsEmitted g g' := by
  obtain ⟨ho, f, hf, hl⟩ := h
  exact ⟨ho, f, fun l => ⟨(hf l).1, (hf l).2 hov⟩, hl⟩

theorem Keeps.trans {g g₁ g₂ : GuideState} (h₁ : Keeps g g₁) (h₂ : Keeps g₁ g₂) : Keeps g g₂ := by
  obtain ⟨hov₁, f₁, hf₁, hl₁⟩ := h₁
  obtain ⟨hov₂, f₂, hf₂, hl₂⟩ := h₂
  refine ⟨hov₂.trans hov₁, f₂ ∘ f₁, fun l => ⟨?_, fun ho => ?_⟩, by rw [hl₂, hl₁, mapTop_mapTop]⟩
  · rw [Function.comp, (hf₂ _).1, (hf₁ _).1]
  · rw [Function.comp, (hf₂ _).2 (hov₁ ▸ ho), (hf₁ _).2 ho]

theorem KeepsEmitted.trans {g g₁ g₂ : GuideState} (h₁ : KeepsEmitted g g₁) (h₂ : KeepsEmitted g₁ g₂) :
    KeepsEmitted g g₂ := by
  obtain ⟨hov₁, f₁, hf₁, hl₁⟩ := h₁
  obtain ⟨hov₂, f₂, hf₂, hl₂⟩ := h₂
  refine ⟨hov₂.trans hov₁, f₂ ∘ f₁, fun l => ⟨?_, ?_⟩, by rw [hl₂, hl₁, mapTop_mapTop]⟩
  · rw [Function.comp, (hf₂ _).1, (hf₁ _).1]
  · rw [Function.comp, (hf₂ _).2, (hf₁ _).2]

theorem KeepsEmitted.level {g g' : GuideState} (h : KeepsEmitted g g') {level : Level}
    {rest : List Level} (hl : g.levels = level :: rest) :
    ∃ level', g'.levels = level' :: rest ∧ level'.node = level.node ∧ level'.emitted = level.emitted := by
  obtain ⟨-, f, hf, hl'⟩ := h
  exact ⟨f level, by rw [hl', hl]; rfl, hf level⟩

/-- Only the scalar constraint changed. -/
theorem keepsEmitted_of_eq {g g' : GuideState} (hl : g'.levels = g.levels) (ho : g'.overflow = g.overflow) :
    KeepsEmitted g g' :=
  ⟨ho, id, fun _ => ⟨rfl, rfl⟩, by rw [hl, mapTop_id]⟩

namespace GuideState

variable {arena : SchemaArena} {root : NodeId}

/-- Between the brackets of a guided array every element is governed by its node. -/
theorem expected_array {g : GuideState} {level : Level} {rest : List Level} {items : NodeId}
    (hov : g.overflow = 0) (hl : g.levels = level :: rest) (hnode : arena.node level.node = .array items) :
    g.expected arena root = items := by
  simp [expected, hov, hl, hnode]

/-- Content changes the scalar constraint only. -/
theorem content_levels {g g' : GuideState} {b : UInt8} {ev : Events} (h : g.content arena b ev = some g') :
    g'.levels = g.levels ∧ g'.overflow = g.overflow := by
  unfold content at h
  split at h
  · split at h
    · cases h; exact ⟨rfl, rfl⟩
    · obtain ⟨-, h⟩ := Option.ite_none_left_eq_some.1 h
      cases h; exact ⟨rfl, rfl⟩
  · split at h
    · cases h; exact ⟨rfl, rfl⟩
    · obtain ⟨-, h⟩ := Option.ite_none_left_eq_some.1 h
      cases h; exact ⟨rfl, rfl⟩
  · obtain ⟨-, h⟩ := Option.ite_none_left_eq_some.1 h
    cases h; exact ⟨rfl, rfl⟩
  · cases h; exact ⟨rfl, rfl⟩

theorem reads_levels {g g' : GuideState} {w : List UInt8} (h : g.reads arena w = some g') :
    g'.levels = g.levels ∧ g'.overflow = g.overflow := by
  induction w generalizing g with
  | nil => cases h; exact ⟨rfl, rfl⟩
  | cons b w ih =>
      rw [reads_cons] at h
      obtain ⟨g₁, hc, h⟩ := Option.bind_eq_some_iff.1 h
      obtain ⟨hl, ho⟩ := content_levels hc
      obtain ⟨hl', ho'⟩ := ih h
      exact ⟨hl'.trans hl, ho'.trans ho⟩

theorem enter_scalar {g g' : GuideState} {b : UInt8} (hb : b ≠ 0x7B ∧ b ≠ 0x5B)
    (h : g.enter arena root b = some g') : g'.levels = g.levels ∧ g'.overflow = g.overflow := by
  obtain ⟨val, -, rfl⟩ := Option.map_eq_some_iff.1 h
  simp [hb]

theorem finishScalar_keeps {g g' : GuideState} {i : Bool} {b : UInt8}
    (h : g.finishScalar arena i b = some g') : KeepsEmitted g g' := by
  unfold finishScalar at h
  split at h
  · cases h
    by_cases ho : g.overflow = 0
    · exact ⟨rfl, fun l => { l with curProp := none }, fun _ => ⟨rfl, rfl⟩, by simp [ho]⟩
    · exact keepsEmitted_of_eq (by simp [ho]) rfl
  · cases h

theorem closedGuide_keeps {g g' : GuideState} {b : UInt8} {w : List UInt8} (hb : b ≠ 0x7B ∧ b ≠ 0x5B)
    (h : g.closedGuide arena root (b :: w) = some g') : KeepsEmitted g g' := by
  obtain ⟨g₁, he, h⟩ := Option.bind_eq_some_iff.1 h
  obtain ⟨g₂, hr, h⟩ := Option.bind_eq_some_iff.1 h
  obtain ⟨hl₁, ho₁⟩ := enter_scalar hb he
  obtain ⟨hl₂, ho₂⟩ := reads_levels hr
  exact (keepsEmitted_of_eq (hl₂.trans hl₁) (ho₂.trans ho₁)).trans (finishScalar_keeps h)

theorem numberGuide_keeps {g g' : GuideState} {b : UInt8} {w : List UInt8} (hb : b ≠ 0x7B ∧ b ≠ 0x5B)
    (h : g.numberGuide arena root (b :: w) = some g') : KeepsEmitted g g' := by
  obtain ⟨g₁, he, hr⟩ := Option.bind_eq_some_iff.1 h
  obtain ⟨hl₁, ho₁⟩ := enter_scalar hb he
  obtain ⟨hl₂, ho₂⟩ := reads_levels hr
  exact keepsEmitted_of_eq (hl₂.trans hl₁) (ho₂.trans ho₁)

theorem startKey_levels (g : GuideState) :
    (g.startKey arena).levels = g.levels ∧ (g.startKey arena).overflow = g.overflow := by
  unfold startKey
  split
  · exact ⟨rfl, rfl⟩
  · split
    · exact ⟨rfl, rfl⟩
    · split <;> exact ⟨rfl, rfl⟩

theorem finishKey_keeps {g g' : GuideState} (hov : g.overflow = 0) (h : g.finishKey arena = some g') :
    Keeps g g' := by
  have hsame : ∀ {g' : GuideState}, g'.levels = g.levels → g'.overflow = g.overflow → Keeps g g' :=
    fun hl ho => (keepsEmitted_of_eq hl ho).keeps
  have hno : ∀ {P : Prop}, 0 < g.overflow → P := fun h => absurd h (by omega)
  unfold finishKey at h
  split at h
  · split at h
    · cases h; exact hsame rfl rfl
    next level rest hlevels =>
      split at h
      · split at h
        next i _ =>
          cases h
          exact ⟨rfl, fun l => { l with emitted := l.emitted ||| (1#64 <<< i), curProp := some i },
            fun _ => ⟨rfl, hno⟩, by rw [hlevels]; rfl⟩
        · obtain ⟨-, h⟩ := Option.ite_none_right_eq_some.1 h
          cases h
          exact ⟨rfl, fun l => { l with curProp := none }, fun _ => ⟨rfl, hno⟩, by rw [hlevels]; rfl⟩
      · cases h; exact hsame rfl rfl
  · cases h; exact hsame rfl rfl

theorem keyGuide_keeps {g g' : GuideState} {key : Str} (h : g.keyGuide arena key = some g') :
    Keeps g g' := by
  unfold keyGuide at h
  split at h
  · obtain ⟨g₁, hr, hf⟩ := Option.bind_eq_some_iff.1 h
    by_cases hov : g.overflow > 0
    · have hval : (g.startKey arena).val = .free := by simp [startKey, hov]
      rw [reads_free hval] at hr
      cases hr
      simp only [finishKey, startKey, if_pos hov] at hf
      cases hf
      have hsame : KeepsEmitted g { g with val := .free } := keepsEmitted_of_eq rfl rfl
      exact hsame.keeps
    · obtain ⟨hl, ho⟩ := reads_levels hr
      obtain ⟨hl₀, ho₀⟩ : (g.startKey arena).levels = g.levels ∧ (g.startKey arena).overflow = g.overflow :=
        startKey_levels g
      have hsame : KeepsEmitted g g₁ := keepsEmitted_of_eq (hl.trans hl₀) (ho.trans ho₀)
      exact hsame.keeps.trans (finishKey_keeps (by rw [hsame.overflow_eq]; omega) hf)
  · cases h

/-- The node a container opened under `id` is guided by. -/
def levelNode (arena : SchemaArena) (id : NodeId) : NodeId :=
  match arena.node id with
  | .object _ _ _ => id
  | .array _ => id
  | _ => anyId

/-- An opened container is a level of its own, or one more beyond the guided depth. -/
theorem enter_container {g g' : GuideState} {b : UInt8} (hb : b = 0x7B ∨ b = 0x5B)
    (hov : g.overflow < 255) (h : g.enter arena root b = some g') :
    (g.overflow = 0 ∧ g.levels.length < guidedDepth ∧ g'.overflow = 0 ∧
        g'.levels = ⟨levelNode arena (g.expected arena root), 0#64, none⟩ :: g.levels) ∨
      ((g.overflow > 0 ∨ guidedDepth ≤ g.levels.length) ∧ g'.overflow = g.overflow + 1 ∧
        g'.levels = g.levels) := by
  obtain ⟨val, -, rfl⟩ := Option.map_eq_some_iff.1 h
  rw [if_pos hb]
  by_cases hdeep : g.overflow > 0 ∨ g.levels.length ≥ guidedDepth
  · rw [if_pos hdeep]
    exact .inr ⟨hdeep, by show min (g.overflow + 1) 255 = _; omega, rfl⟩
  · rw [if_neg hdeep]
    push Not at hdeep
    exact .inl ⟨by omega, hdeep.2, by show g.overflow = 0; omega, rfl⟩

theorem closeContainer_overflow {g g' : GuideState} (hov : g.overflow > 0)
    (h : g.closeContainer arena = some g') : g'.levels = g.levels ∧ g'.overflow + 1 = g.overflow := by
  rw [closeContainer, if_pos hov] at h
  cases h
  exact ⟨rfl, by show g.overflow - 1 + 1 = _; omega⟩

theorem closeContainer_level {g g' : GuideState} {level : Level} {rest : List Level}
    (hov : g.overflow = 0) (hl : g.levels = level :: rest) (h : g.closeContainer arena = some g') :
    g'.levels = mapTop ({ · with curProp := none }) rest ∧ g'.overflow = 0 ∧
      ∀ props required additional, arena.node level.node = .object props required additional →
        level.emitted &&& required = required := by
  rw [closeContainer, if_neg (by omega)] at h
  simp only [hl] at h
  obtain ⟨hok, h⟩ := Option.ite_none_right_eq_some.1 h
  cases h
  refine ⟨rfl, hov, fun props required additional hnode => ?_⟩
  simpa [hnode] using hok

/-- Closing a container opened from `g` gives back the levels of `g`. -/
theorem close_keeps {g g₁ g₂ g' : GuideState} {b : UInt8} (hb : b = 0x7B ∨ b = 0x5B)
    (hov : g.overflow < 255) (he : g.enter arena root b = some g₁) (hk : Keeps g₁ g₂)
    (hc : g₂.closeContainer arena = some g') : KeepsEmitted g g' := by
  rcases enter_container hb hov he with ⟨h0, -, hov₁, hl₁⟩ | ⟨-, hov₁, hl₁⟩
  · obtain ⟨hov₂, f, hf, hl₂⟩ := hk
    rw [hl₁] at hl₂
    obtain ⟨hl, ho, -⟩ := closeContainer_level (hov₂.trans hov₁) hl₂ hc
    exact ⟨by rw [ho, h0], fun l => { l with curProp := none }, fun _ => ⟨rfl, rfl⟩, hl⟩
  · obtain ⟨hov₂, f, hf, hl₂⟩ := hk.keepsEmitted (by omega)
    obtain ⟨hl, ho⟩ := closeContainer_overflow (by omega) hc
    exact ⟨by omega, f, hf, by rw [hl, hl₂, hl₁]⟩

theorem enter_overflow_le {g g₁ : GuideState} {b : UInt8} (hb : b = 0x7B ∨ b = 0x5B)
    (hov : g.overflow < 255) (he : g.enter arena root b = some g₁) : g₁.overflow ≤ g.overflow + 1 := by
  rcases enter_container hb hov he with ⟨-, -, h, -⟩ | ⟨-, h, -⟩ <;> omega

theorem commaGuide_eq {g g' : GuideState} (h : g.commaGuide arena = some g') : g' = g := by
  obtain ⟨-, h⟩ := Option.ite_none_right_eq_some.1 h
  cases h
  rfl

/-- A comma may stand where a key can follow. -/
theorem commaGuide_of_key {g g₁ : GuideState} {key : Str} (h : g.keyGuide arena key = some g₁) :
    g.commaGuide arena = some g := by
  obtain ⟨havail, -⟩ := Option.ite_none_right_eq_some.1 h
  exact if_pos havail

mutual

/-- A value keeps the levels it is read in, within the range of the `u8` that counts the overflow. -/
theorem valueGuide_keeps : ∀ (v : Value) {g g' : GuideState}, g.overflow + v.depth ≤ 255 →
    valueGuide arena root v g = some g' → KeepsEmitted g g'
  | .lit l, g, g', _, h => by
      rw [valueGuide] at h
      cases l <;> exact closedGuide_keeps (by decide) h
  | .num n, g, g', _, h => by
      obtain ⟨g₁, hn, h⟩ := Option.bind_eq_some_iff.1 h
      obtain ⟨b, w, hprint, hb⟩ := scalar_head (v := .num n) rfl
      rw [show n.print = b :: w from hprint] at hn
      exact (numberGuide_keeps hb hn).trans (finishScalar_keeps h)
  | .str s, g, g', _, h => by
      rw [valueGuide] at h
      exact closedGuide_keeps (by decide) h
  | .emptyArr _, g, g', hov, h => by
      simp only [Value.depth] at hov
      obtain ⟨g₁, he, hc⟩ := Option.bind_eq_some_iff.1 h
      exact close_keeps (.inr rfl) (by omega) he (keepsEmitted_of_eq rfl rfl).keeps hc
  | .emptyObj _, g, g', hov, h => by
      simp only [Value.depth] at hov
      obtain ⟨g₁, he, hc⟩ := Option.bind_eq_some_iff.1 h
      exact close_keeps (.inl rfl) (by omega) he (keepsEmitted_of_eq rfl rfl).keeps hc
  | .arr items, g, g', hov, h => by
      simp only [Value.depth] at hov
      obtain ⟨g₁, he, h⟩ := Option.bind_eq_some_iff.1 h
      obtain ⟨g₂, hi, hc⟩ := Option.bind_eq_some_iff.1 h
      have hle := enter_overflow_le (.inr rfl) (by omega) he
      exact close_keeps (.inr rfl) (by omega) he (itemsGuide_keeps items (by omega) hi).keeps hc
  | .obj members, g, g', hov, h => by
      simp only [Value.depth] at hov
      obtain ⟨g₁, he, h⟩ := Option.bind_eq_some_iff.1 h
      obtain ⟨g₂, hm, hc⟩ := Option.bind_eq_some_iff.1 h
      have hle := enter_overflow_le (.inl rfl) (by omega) he
      exact close_keeps (.inl rfl) (by omega) he (membersGuide_keeps members (by omega) hm) hc

theorem itemsGuide_keeps : ∀ (items : Items) {g g' : GuideState}, g.overflow + items.depth ≤ 255 →
    itemsGuide arena root items g = some g' → KeepsEmitted g g'
  | .one _ v _, g, g', hov, h => valueGuide_keeps v hov h
  | .snoc init _ v _, g, g', hov, h => by
      simp only [Items.depth] at hov
      obtain ⟨g₁, hi, h⟩ := Option.bind_eq_some_iff.1 h
      have hinit := itemsGuide_keeps init (by omega) hi
      exact hinit.trans (valueGuide_keeps v (by rw [hinit.overflow_eq]; omega) h)

theorem membersGuide_keeps : ∀ (members : Members) {g g' : GuideState},
    g.overflow + members.depth ≤ 255 → membersGuide arena root members g = some g' → Keeps g g'
  | .one _ key _ _ v _, g, g', hov, h => by
      simp only [Members.depth] at hov
      obtain ⟨g₁, hk, h⟩ := Option.bind_eq_some_iff.1 h
      have hkey := keyGuide_keeps hk
      exact hkey.trans (valueGuide_keeps v (by rw [hkey.overflow_eq]; omega) h).keeps
  | .snoc init _ key _ _ v _, g, g', hov, h => by
      simp only [Members.depth] at hov
      obtain ⟨g₁, hm, h⟩ := Option.bind_eq_some_iff.1 h
      obtain ⟨g₂, hc, h⟩ := Option.bind_eq_some_iff.1 h
      obtain ⟨g₃, hk, h⟩ := Option.bind_eq_some_iff.1 h
      rw [commaGuide_eq hc] at hk
      have hinit := membersGuide_keeps init (by omega) hm
      have hkey := hinit.trans (keyGuide_keeps hk)
      exact hkey.trans (valueGuide_keeps v (by rw [hkey.overflow_eq]; omega) h).keeps

end

end GuideState

end Oxydllm.Constrain
