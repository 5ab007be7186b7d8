/-
# Oxydllm.Constrain.InStep — the machine and the guide open and close containers together.

The guide never sees the machine's stack, only the events of each byte. A container is opened by a value that
starts with a bracket and closed by the event of its closing one, on both sides; so the levels and the overflow
of the guide count what the machine's depth does, which stays far below where the overflow would saturate.
-/
import Oxydllm.Constrain.Frame
import Oxydllm.Constrain.GuideArray

namespace Oxydllm.Constrain

/-- What a byte opens. -/
def opened (b : UInt8) (ev : Events) : Nat := if ev.valueStart = true ∧ (b = 0x7B ∨ b = 0x5B) then 1 else 0

/-- What a byte closes. -/
def closed (ev : Events) : Nat := if ev.objClose || ev.arrClose then 1 else 0

/-! ## The machine -/

theorem step_depth {mode : JsonMode} {v v' : View} {b : UInt8} {ev : Events} (h : Step mode v b v' ev)
    (hle : v.frames.length ≤ maxDepth) :
    v'.frames.length = v.frames.length + opened b ev - closed ev ∧ v'.frames.length ≤ maxDepth := by
  unfold opened closed
  cases h with
  | objOpen hst hd => exact ⟨rfl, hd⟩
  | arrOpen hst hd htop => exact ⟨rfl, hd⟩
  | numOpen hst htop hb =>
      have hbracket : ¬ (b = 0x7B ∨ b = 0x5B) := by
        rintro (rfl | rfl) <;> cases hb
      rw [if_neg fun hc => hbracket hc.2]
      exact ⟨rfl, hle⟩
  | litOpen hst htop hb =>
      have hbracket : ¬ (b = 0x7B ∨ b = 0x5B) := by
        rintro (rfl | rfl) <;> cases hb
      rw [if_neg fun hc => hbracket hc.2]
      exact ⟨rfl, hle⟩
  | objClose hst => exact ⟨rfl, Nat.le_of_succ_le hle⟩
  | arrClose hst => exact ⟨rfl, Nat.le_of_succ_le hle⟩
  | numObjClose hn => exact ⟨rfl, Nat.le_of_succ_le hle⟩
  | numArrClose hn => exact ⟨rfl, Nat.le_of_succ_le hle⟩
  | _ => exact ⟨rfl, hle⟩

theorem stepEv_depth {m m' : JsonMachine} {b : UInt8} {mode : JsonMode} {ev : Events}
    (h : m.stepEv b mode = some (m', ev)) (hle : m.depth ≤ maxDepth) :
    m'.depth = m.depth + opened b ev - closed ev ∧ m'.depth ≤ maxDepth := by
  rw [← JsonMachine.frames_length] at hle
  have hstep := step_depth (JsonMachine.step_of_stepEv h) hle
  rwa [show m.view.frames = m.frames from rfl, show m'.view.frames = m'.frames from rfl, JsonMachine.frames_length,
    JsonMachine.frames_length] at hstep

/-! ## The guide -/

namespace GuideState

variable {arena : SchemaArena}

/-- The containers that the guide knows to be open. -/
def opens (g : GuideState) : Nat := g.levels.length + g.overflow

theorem keeps_opens {g g' : GuideState} (h : Keeps g g') : g'.opens = g.opens := by
  obtain ⟨f, -, hlevels⟩ := h.levels_eq
  unfold opens
  rw [hlevels, h.overflow_eq]
  cases g.levels with
  | nil => rfl
  | cons level rest => rfl

theorem finishKey_opens {g g' : GuideState} (h : g.finishKey arena = some g') : g'.opens = g.opens := by
  unfold finishKey at h
  split at h
  · split at h
    · cases h
      rfl
    next level rest hlevels =>
      split at h
      · split at h
        · cases h
          unfold opens
          rw [hlevels]
          rfl
        · obtain ⟨-, h⟩ := Option.ite_none_right_eq_some.1 h
          cases h
          unfold opens
          rw [hlevels]
          rfl
      · cases h
        rfl
  · cases h
    rfl

/-- A bracket opens a level, or counts as one more beyond them. -/
theorem enterValue_opens {g g' : GuideState} {node : NodeId} {b : UInt8} (hov : g.overflow < 255)
    (h : g.enterValue arena node b = some g') : g'.opens = g.opens + if b = 0x7B ∨ b = 0x5B then 1 else 0 := by
  obtain ⟨val, -, rfl⟩ := Option.map_eq_some_iff.1 h
  unfold opens
  split
  · split
    · show g.levels.length + min (g.overflow + 1) 255 = g.levels.length + g.overflow + 1
      omega
    · show g.levels.length + 1 + g.overflow = g.levels.length + g.overflow + 1
      omega
  · rfl

theorem closeContainer_opens {g g' : GuideState} (h : g.closeContainer arena = some g') : g'.opens = g.opens - 1 := by
  unfold closeContainer at h
  split at h
  · cases h
    show g.levels.length + (g.overflow - 1) = g.levels.length + g.overflow - 1
    omega
  · rename_i hov
    split at h
    · rename_i hlevels
      cases h
      unfold opens
      rw [hlevels, List.length_nil]
      omega
    next level rest hlevels =>
      obtain ⟨-, h⟩ := Option.ite_none_right_eq_some.1 h
      cases h
      unfold opens
      rw [hlevels, List.length_cons]
      cases rest with
      | nil =>
          show 0 + g.overflow = 0 + 1 + g.overflow - 1
          omega
      | cons level' rest =>
          show rest.length + 1 + g.overflow = rest.length + 1 + 1 + g.overflow - 1
          omega

theorem settled_keeps {c : Bool} {g g' : GuideState} {included : Bool} {b : UInt8}
    (h : (if c then g.finishScalar arena included b else some g) = some g') : KeepsEmitted g g' := by
  cases c with
  | true => exact finishScalar_keeps h
  | false =>
      cases h
      exact keepsEmitted_of_eq rfl rfl

/-- A byte opens and closes what its events say. -/
theorem onByte_opens {root : NodeId} {g g' : GuideState} {b : UInt8} {ev : Events} {wasNum : Bool}
    (hov : g.overflow < 255) (h : g.onByte arena root b ev wasNum = some g') :
    g'.opens = g.opens + opened b ev - closed ev := by
  obtain ⟨g₁, h₁, h⟩ := Option.bind_eq_some_iff.1 h
  obtain ⟨-, h⟩ := Option.ite_none_left_eq_some.1 h
  obtain ⟨g₂, h₂, h⟩ := Option.bind_eq_some_iff.1 h
  obtain ⟨g₃, h₃, h⟩ := Option.bind_eq_some_iff.1 h
  obtain ⟨g₄, h₄, h⟩ := Option.bind_eq_some_iff.1 h
  have hsettle : g₁.opens = g.opens := keeps_opens (settled_keeps h₁).keeps
  have hov₁ : g₁.overflow < 255 := by rwa [(settled_keeps h₁).overflow_eq]
  have henter : g₂.opens = g₁.opens + opened b ev := by
    unfold opened
    split at h₂
    next hvalue =>
      rw [enterValue_opens hov₁ h₂]
      simp only [hvalue, true_and]
    next hvalue =>
      rw [if_neg fun hc => hvalue hc.1]
      split at h₂
      · obtain ⟨-, h₂⟩ := Option.ite_none_right_eq_some.1 h₂
        cases h₂
        obtain ⟨hlevels, hoverflow⟩ := @startKey_levels arena g₁
        unfold opens
        rw [hlevels, hoverflow]
        rfl
      · obtain ⟨hlevels, hoverflow⟩ := content_levels h₂
        unfold opens
        rw [hlevels, hoverflow]
        rfl
  have hscalar : g₃.opens = g₂.opens := keeps_opens (settled_keeps h₃).keeps
  have hkey : g₄.opens = g₃.opens := by
    split at h₄
    · exact finishKey_opens h₄
    · cases h₄
      rfl
  have hclose : g'.opens = g₄.opens - closed ev := by
    unfold closed
    split at h
    · rename_i hc
      rw [if_pos hc]
      exact closeContainer_opens h
    · rename_i hc
      cases h
      rw [if_neg hc]
      rfl
  rw [hclose, hkey, hscalar, henter, hsettle]

end GuideState

/-! ## The run -/

namespace SchemaArena

/-- An arena that the source can make. -/
inductive Made : SchemaArena → Prop where
  | unconstrained : Made unconstrained
  | compile {schema : Json} (h : schema.Wf) : Made (compile schema)

theorem Made.wf {arena : SchemaArena} (h : arena.Made) : arena.Wf := by
  cases h with
  | unconstrained => exact unconstrained_wf
  | compile h => exact compile_wf h

/-- The root that the source sets is a node of the arena. -/
theorem Made.root_lt {arena : SchemaArena} (h : arena.Made) : arena.root < arena.nodes.length := by
  have hpos : 0 < arena.nodes.length := by
    cases h with
    | unconstrained => exact Nat.one_pos
    | @compile schema h =>
        have hgrows : Grows [.any] (compileNode schema 33 [.any] schema) :=
          compileNode_grows h 33 h (by simp) (by simp [NodeWf])
        have hlen := hgrows.pre.length_le
        unfold SchemaArena.compile
        dsimp only
        split
        · show 0 < ((compileNode schema 33 [.any] schema).1 ++ [SchemaNode.any]).length
          rw [List.length_append]
          exact Nat.succ_pos _
        · exact hlen
  exact Nat.lt_of_le_of_lt (nodeId_le _) (Nat.sub_lt hpos Nat.one_pos)

end SchemaArena

namespace GuideArray

/-- The guide's counts are the machine's, and its levels are those of containers. -/
structure InStep (arena : SchemaArena) (m : JsonMachine) (g : GuideArray) : Prop where
  depth : g.depth + g.overflow = m.depth
  machine : m.depth ≤ maxDepth
  good : g.Good arena

theorem opens_eq {arena : SchemaArena} {g : GuideArray} (h : g.Good arena) : g.state.opens = g.depth + g.overflow := by
  unfold GuideState.opens state
  rw [List.length_reverse, List.length_take, Vector.length_toList, Nat.min_eq_left h.depth_le]

theorem inStep_new (arena : SchemaArena) (mode : JsonMode) : InStep arena (JsonMachine.new mode) new :=
  ⟨rfl, Nat.zero_le _, Nat.zero_le _, fun _ hl => absurd hl List.not_mem_nil, fun _ _ _ hc => (by cases hc),
    fun _ _ _ hc => (by cases hc)⟩

/-- One byte: the machine refuses it, the guide rejects it, or both go on in step. -/
theorem inStep_byte {arena : SchemaArena} (hwf : arena.Wf) {root : NodeId} (hroot : root < arena.nodes.length)
    {mode : JsonMode} {m m' : JsonMachine} {g : GuideArray} (h : InStep arena m g) {b : UInt8} {ev : Events}
    (hstep : m.stepEv b mode = some (m', ev)) :
    (g.onByte arena root b ev m.inNumber = .error .reject) ∨
      ∃ g', g.onByte arena root b ev m.inNumber = .ok g' ∧ InStep arena m' g' := by
  -- the machine stops long before the overflow saturates
  have hov : g.state.overflow < 255 := by
    have := h.depth
    have := h.machine
    show g.overflow < 255
    unfold maxDepth at this
    omega
  rcases onByte_follows hwf hroot h.good b ev m.inNumber with ⟨g', hg', hgood', hstate⟩ | ⟨hreject, -⟩
  · refine .inr ⟨g', hg', ?_, ?_, hgood'⟩
    · rw [← opens_eq hgood', GuideState.onByte_opens hov hstate, opens_eq h.good, h.depth, (stepEv_depth hstep h.machine).1]
    · exact (stepEv_depth hstep h.machine).2
  · exact .inl hreject

/-- A walk goes on in step, with the array in the state of the list, or is rejected on both. -/
theorem walk_follows (c : JsonConstraint) (hwf : c.arena.Wf) (hroot : c.root < c.arena.nodes.length) {m : JsonMachine}
    {g : GuideArray} (h : InStep c.arena m g) (w : List UInt8) :
    (∃ m' g', walk c.arena c.root c.mode m g w = .ok (m', g') ∧ InStep c.arena m' g' ∧
        c.walk m g.state w = some (m', g'.state)) ∨
      (walk c.arena c.root c.mode m g w = .error .reject ∧ c.walk m g.state w = none) := by
  induction w generalizing m g with
  | nil => exact .inl ⟨m, g, rfl, h, rfl⟩
  | cons b w ih =>
      unfold walk JsonConstraint.walk
      cases hstep : m.stepEv b c.mode with
      | none => exact .inr ⟨rfl, rfl⟩
      | some p =>
          obtain ⟨m₁, ev⟩ := p
          dsimp only [Option.bind_some]
          rcases onByte_follows hwf hroot h.good b ev m.inNumber with ⟨g₁, hg₁, -, hstate⟩ | ⟨hreject, hnone⟩
          · rcases inStep_byte hwf hroot h hstep with hreject | ⟨g₂, hg₂, hnext⟩
            · rw [hg₁] at hreject
              cases hreject
            · rw [hg₁] at hg₂
              cases hg₂
              rw [hg₁, hstate]
              exact ih hnext
          · rw [hreject, hnone]
            exact .inr ⟨rfl, rfl⟩

/-- Whatever bytes are walked from the start, none panics, and where they are accepted the guide is in step with
the machine and no further byte panics. -/
theorem walk_inStep {arena : SchemaArena} (hmade : arena.Made) {root : NodeId} (hroot : root < arena.nodes.length)
    (mode : JsonMode) (w : List UInt8) :
    walk arena root mode (JsonMachine.new mode) new w ≠ .error .panic ∧
      ∀ m g, walk arena root mode (JsonMachine.new mode) new w = .ok (m, g) →
        g.depth + g.overflow = m.depth ∧ g.overflow < 255 ∧ g.depth ≤ guidedDepth ∧
          (∀ level ∈ g.levels.toList.take g.depth, LevelOk arena level) ∧
          ∀ b m' ev, m.stepEv b mode = some (m', ev) → g.onByte arena root b ev m.inNumber ≠ .error .panic := by
  have hwalk := walk_follows ⟨⟨[], []⟩, arena, root, .new mode, .new, mode⟩ hmade.wf hroot (inStep_new arena mode) w
  constructor
  · intro hpanic
    rcases hwalk with ⟨m', g', hok, -⟩ | ⟨hreject, -⟩
    · have := hpanic.symm.trans hok
      cases this
    · have := hpanic.symm.trans hreject
      cases this
  · intro m g hg
    rcases hwalk with ⟨m', g', hok, hstep, -⟩ | ⟨hreject, -⟩
    · have heq := hg.symm.trans hok
      cases heq
      have hmachine := hstep.machine
      have hdepth := hstep.depth
      unfold maxDepth at hmachine
      refine ⟨hdepth, by omega, hstep.good.depth_le, hstep.good.levels, fun b m' ev hev hpanic => ?_⟩
      rcases inStep_byte hmade.wf hroot hstep hev with hreject | ⟨g', hg', -⟩
      · rw [hreject] at hpanic
        cases hpanic
      · rw [hg'] at hpanic
        cases hpanic
    · have := hg.symm.trans hreject
      cases this

/-- An object in an array: the bytes of `[{`. -/
theorem walk_inStep_nested :
    walk SchemaArena.unconstrained 0 .value (JsonMachine.new .value) new [0x5B, 0x7B] ≠ .error .panic ∧
      ∀ m g, walk SchemaArena.unconstrained 0 .value (JsonMachine.new .value) new [0x5B, 0x7B] = .ok (m, g) →
        g.depth + g.overflow = m.depth ∧ g.overflow < 255 ∧ g.depth ≤ guidedDepth ∧
          (∀ level ∈ g.levels.toList.take g.depth, LevelOk SchemaArena.unconstrained level) ∧
          ∀ b m' ev, m.stepEv b .value = some (m', ev) →
            g.onByte SchemaArena.unconstrained 0 b ev m.inNumber ≠ .error .panic :=
  walk_inStep .unconstrained (by decide) .value [0x5B, 0x7B]

end GuideArray

end Oxydllm.Constrain
