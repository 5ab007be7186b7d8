/-
# Oxydllm.Constrain.GuideArray — the guide's levels in their array, and the bytes that could panic.

`GuideState` as the source keeps it: eight levels, a depth and an overflow. Every index is checked here, those of
the levels, of a level's properties and of the arena's nodes, and so is every shift of a `u64`; a byte is then
accepted, rejected, or panics. A mask's loop is taken to shift by every index of its list.

No byte panics, the levels below the depth are the list that `GuideState` keeps, and the containers that the
machine has open are those that the guide counts.
-/
import Oxydllm.Constrain.Guide

namespace Oxydllm.Constrain

/-! ## The guide of the source -/

/-- Why a byte gives no state. -/
inductive Halt where
  | reject
  | panic
  deriving DecidableEq

/-- `xs[i]`. -/
def index {α : Type} (xs : List α) (i : Nat) : Except Halt α := (xs[i]?).elim (.error .panic) .ok

/-- The shifts `1 << i` of a `u64` by the indices below `n`. -/
def shifts (n : Nat) : Except Halt Unit := if n ≤ 64 then .ok () else .error .panic

def SchemaArena.nodeAt (arena : SchemaArena) (id : NodeId) : Except Halt SchemaNode := index arena.nodes id

/-- The masks of an enum's literals. -/
def SchemaNode.shifted : SchemaNode → Except Halt Unit
  | .enum literals => shifts literals.length
  | .object props _ _ => shifts props.length
  | _ => .ok ()

structure GuideArray where
  levels : Vector Level guidedDepth
  depth : Nat
  overflow : Nat
  val : ValCtx

namespace GuideArray

variable (arena : SchemaArena)

def new : GuideArray := ⟨Vector.replicate guidedDepth ⟨anyId, 0#64, none⟩, 0, 0, .free⟩

def setVal (g : GuideArray) (val : ValCtx) : GuideArray := { g with val := val }

/-- `self.levels[self.depth as usize - 1]`. -/
def top (g : GuideArray) : Except Halt Level :=
  if g.depth = 0 then .error .panic else index g.levels.toList (g.depth - 1)

def setLevel (g : GuideArray) (i : Nat) (level : Level) : Except Halt GuideArray :=
  if h : i < guidedDepth then .ok { g with levels := g.levels.set i level } else .error .panic

def setTop (g : GuideArray) (f : Level → Level) : Except Halt GuideArray :=
  g.top.bind fun level => g.setLevel (g.depth - 1) (f level)

/-- The innermost level and its node. -/
def topNode (g : GuideArray) : Except Halt (Level × SchemaNode) :=
  g.top.bind fun level => (arena.nodeAt level.node).map fun node => (level, node)

def expected (root : NodeId) (g : GuideArray) : Except Halt NodeId :=
  if g.overflow > 0 then .ok anyId
  else if g.depth = 0 then .ok root
  else (g.topNode arena).bind fun p =>
    match p.2 with
    | .array items => .ok items
    | .object props _ _ =>
        match p.1.curProp with
        | none => .ok anyId
        | some i => (index props i).map Prod.snd
    | _ => .ok anyId

def hasAvailableKey (g : GuideArray) : Except Halt Bool :=
  if g.overflow > 0 ∨ g.depth = 0 then .ok true
  else (g.topNode arena).bind fun p =>
    match p.2 with
    | .object props _ additional =>
        p.2.shifted.map fun _ => additional || (List.range props.length).any fun i => !p.1.emitted.getLsbD i
    | _ => .ok true

def enterValue (g : GuideArray) (node : NodeId) (b : UInt8) : Except Halt GuideArray :=
  (arena.nodeAt node).bind fun n =>
    n.shifted.bind fun _ =>
      match GuideState.startScalar arena node b with
      | none => .error .reject
      | some val =>
          if b = 0x7B ∨ b = 0x5B then
            if g.overflow > 0 ∨ g.depth ≥ guidedDepth then .ok { g with overflow := min (g.overflow + 1) 255, val := val }
            else
              -- what the schema does not describe is free inside
              let levelNode := match n with
                | .object _ _ _ => node
                | .array _ => node
                | _ => anyId
              ((g.setVal val).setLevel g.depth ⟨levelNode, 0#64, none⟩).map fun g =>
                { g with depth := g.depth + 1 }
          else .ok (g.setVal val)

def startKey (g : GuideArray) : Except Halt GuideArray :=
  if g.overflow > 0 ∨ g.depth = 0 then .ok (g.setVal .free)
  else (g.topNode arena).bind fun p =>
    match p.2 with
    | .object props _ additional =>
        p.2.shifted.map fun _ =>
          { g with val := .keyScan (Mask.collect props fun i _ => !p.1.emitted.getLsbD i) 0 additional }
    | _ => .ok (g.setVal .free)

def content (g : GuideArray) (b : UInt8) (ev : Events) : Except Halt GuideArray :=
  match g.val with
  | .enumScan node alive pos =>
      if ev.keyEnd || ev.scalarEnd || ev.objClose || ev.arrClose then .ok g
      else (arena.nodeAt node).bind fun n =>
        n.shifted.bind fun _ =>
          let alive := match n with
            | .enum literals => matching literals alive pos b
            | _ => alive
          if alive = 0#64 then .error .reject else .ok { g with val := .enumScan node alive (nextPos pos) }
  | .keyScan alive pos any =>
      if ev.keyEnd then .ok g
      else (g.topNode arena).bind fun p =>
        p.2.shifted.bind fun _ =>
          let alive := match p.2 with
            | .object props _ _ => matching (props.map Prod.fst) alive pos b
            | _ => alive
          if alive = 0#64 ∧ any = false then .error .reject
          else .ok { g with val := .keyScan alive (nextPos pos) any }
  | .intNumber => if b = 0x2E ∨ b = 0x65 ∨ b = 0x45 then .error .reject else .ok g
  | .free => .ok g

def finishKey (g : GuideArray) : Except Halt GuideArray :=
  match g.val with
  | .keyScan alive pos any =>
      (g.topNode arena).bind fun p =>
        match p.2 with
        | .object props _ _ =>
            p.2.shifted.bind fun _ =>
              match (List.range props.length).find? fun i =>
                  alive.getLsbD i && ((props[i]?).map fun p => p.1.length) == some pos with
              | some i =>
                  (g.setVal .free).setTop fun level =>
                    { level with emitted := level.emitted ||| (1#64 <<< i), curProp := some i }
              | none =>
                  ((g.setVal .free).setTop ({ · with curProp := none })).bind fun g =>
                    if any then .ok g else .error .reject
        | _ => .ok (g.setVal .free)
  | _ => .ok (g.setVal .free)

def finishScalar (g : GuideArray) (byteIncluded : Bool) (b : UInt8) : Except Halt GuideArray :=
  let checked : Except Halt Unit := match g.val with
    | .enumScan node _ _ => (arena.nodeAt node).bind SchemaNode.shifted
    | _ => .ok ()
  checked.bind fun _ =>
    (if g.depth > 0 ∧ g.overflow = 0 then (g.setVal .free).setTop ({ · with curProp := none })
      else .ok (g.setVal .free)).bind fun g' =>
        if GuideState.scalarMayEnd arena g.val byteIncluded b then .ok g' else .error .reject

def closeContainer (g : GuideArray) : Except Halt GuideArray :=
  if g.overflow > 0 then .ok { g with overflow := g.overflow - 1 }
  else if g.depth = 0 then .ok g
  else (g.topNode arena).bind fun p =>
    let ok := match p.2 with
      | .object _ required _ => p.1.emitted &&& required == required
      | _ => true
    let g := { g with depth := g.depth - 1, val := .free }
    -- the closed container was the value of the property around it
    (if g.depth > 0 then g.setTop ({ · with curProp := none }) else .ok g).bind fun g =>
      if ok then .ok g else .error .reject

def onByte (root : NodeId) (g : GuideArray) (b : UInt8) (ev : Events) (wasNum : Bool) : Except Halt GuideArray :=
  -- a number ends with the byte after it, which is then taken as well
  (if ev.scalarEnd && wasNum then g.finishScalar arena false b else .ok g).bind fun g =>
  (if ev.objComma then g.hasAvailableKey arena else .ok true).bind fun available =>
  (if !available then .error .reject
    else if ev.valueStart then (g.expected arena root).bind fun node => g.enterValue arena node b
    else if ev.keyStart then
      (g.hasAvailableKey arena).bind fun available => if available then g.startKey arena else .error .reject
    else g.content arena b ev).bind fun g =>
  (if ev.scalarEnd && !wasNum then g.finishScalar arena true b else .ok g).bind fun g =>
  (if ev.keyEnd then g.finishKey arena else .ok g).bind fun g =>
  if ev.objClose || ev.arrClose then g.closeContainer arena else .ok g

/-- `JsonConstraint::walk`; a byte that the machine refuses is rejected. -/
def walk (root : NodeId) (mode : JsonMode) :
    JsonMachine → GuideArray → List UInt8 → Except Halt (JsonMachine × GuideArray)
  | m, g, [] => .ok (m, g)
  | m, g, b :: w =>
      match m.stepEv b mode with
      | none => .error .reject
      | some p => (g.onByte arena root b p.2 m.inNumber).bind fun g' => walk root mode p.1 g' w

/-! ## The levels in use -/

/-- The levels below the depth, innermost first. -/
def state (g : GuideArray) : GuideState := ⟨(g.levels.toList.take g.depth).reverse, g.overflow, g.val⟩

end GuideArray

/-- What governs a level: an object, an array or `Any`. -/
def SchemaNode.guided : SchemaNode → Bool
  | .any => true
  | .object _ _ _ => true
  | .array _ => true
  | _ => false

structure LevelOk (arena : SchemaArena) (level : Level) : Prop where
  node_lt : level.node < arena.nodes.length
  guided : (arena.node level.node).guided = true
  curProp : ∀ i, level.curProp = some i → ∃ props required additional,
    arena.node level.node = .object props required additional ∧ i < props.length

namespace GuideArray

structure Good (arena : SchemaArena) (g : GuideArray) : Prop where
  depth_le : g.depth ≤ guidedDepth
  levels : ∀ level ∈ g.levels.toList.take g.depth, LevelOk arena level
  enum : ∀ node alive pos, g.val = .enumScan node alive pos → node < arena.nodes.length
  key : ∀ alive pos any, g.val = .keyScan alive pos any → 0 < g.depth ∧ g.overflow = 0

section

variable {arena : SchemaArena} {g : GuideArray}

theorem nodeAt_eq {id : NodeId} (h : id < arena.nodes.length) : arena.nodeAt id = .ok (arena.node id) := by
  unfold SchemaArena.nodeAt index SchemaArena.node
  rw [List.getD_eq_getElem?_getD, List.getElem?_eq_getElem h]
  rfl

theorem shifted_eq (hwf : arena.Wf) (id : NodeId) : (arena.node id).shifted = .ok () := by
  have hnode := hwf.node_wf id
  cases hid : arena.node id with
  | object props required additional =>
      rw [hid] at hnode
      exact if_pos hnode.1
  | enum literals =>
      rw [hid] at hnode
      exact if_pos hnode.2.1
  | _ => rfl

/-- The innermost level, its node, and the levels around it. -/
theorem top_eq (h : g.Good arena) (hdepth : 0 < g.depth) :
    ∃ n level, g.depth = n + 1 ∧ n < guidedDepth ∧ LevelOk arena level ∧ g.top = .ok level ∧
      g.topNode arena = .ok (level, arena.node level.node) ∧
      g.state.levels = level :: (g.levels.toList.take n).reverse := by
  obtain ⟨n, hn⟩ := Nat.exists_eq_add_of_lt hdepth
  rw [Nat.zero_add] at hn
  have hlt : n < guidedDepth := by have := h.depth_le; omega
  have hlen : n < g.levels.toList.length := by rw [Vector.length_toList]; exact hlt
  have htake : g.levels.toList.take g.depth = g.levels.toList.take n ++ [g.levels.toList[n]] := by
    rw [hn, List.take_succ_eq_append_getElem hlen]
  have hok : LevelOk arena g.levels.toList[n] := h.levels _ (by rw [htake]; exact List.mem_append_right _ List.mem_cons_self)
  have htop : g.top = .ok g.levels.toList[n] := by
    unfold top index
    rw [if_neg (by omega), hn, Nat.add_sub_cancel, List.getElem?_eq_getElem hlen]
    rfl
  refine ⟨n, g.levels.toList[n], hn, hlt, hok, htop, ?_, ?_⟩
  · unfold topNode
    rw [htop]
    show (arena.nodeAt _).map _ = _
    rw [nodeAt_eq hok.node_lt]
    rfl
  · unfold state
    rw [htake, List.reverse_append]
    rfl

theorem state_overflow (g : GuideArray) : g.state.overflow = g.overflow := rfl

theorem state_val (g : GuideArray) : g.state.val = g.val := rfl

theorem state_levels_nil (h : g.depth = 0) : g.state.levels = [] := by
  unfold state
  rw [h]
  rfl

/-- The innermost level is rewritten in place. -/
theorem setTop_eq (h : g.Good arena) (hdepth : 0 < g.depth) {f : Level → Level}
    (hf : ∀ level, g.top = .ok level → LevelOk arena level → LevelOk arena (f level)) :
    ∃ g', g.setTop f = .ok g' ∧ g'.Good arena ∧
      g'.state = { g.state with levels := GuideState.mapTop f g.state.levels } := by
  obtain ⟨n, level, hn, hlt, hok, htop, -, hlevels⟩ := top_eq h hdepth
  have hset : g.setTop f = .ok { g with levels := g.levels.set n (f level) } := by
    unfold setTop
    rw [htop]
    show g.setLevel (g.depth - 1) (f level) = _
    unfold setLevel
    rw [hn]
    exact dif_pos hlt
  have htake : (g.levels.set n (f level)).toList.take g.depth = g.levels.toList.take n ++ [f level] := by
    have hlen : n < (g.levels.toList.set n (f level)).length := by
      rw [List.length_set, Vector.length_toList]
      exact hlt
    rw [Vector.toList_set, hn, List.take_succ_eq_append_getElem hlen, List.getElem_set_self, List.take_set_of_le le_rfl]
  refine ⟨_, hset, ⟨h.depth_le, fun l hl => ?_, h.enum, h.key⟩, ?_⟩
  · have hl : l ∈ (g.levels.set n (f level)).toList.take g.depth := hl
    rw [htake] at hl
    rcases List.mem_append.1 hl with hl | hl
    · exact h.levels l (by rw [hn]; exact (List.take_subset_take_left _ (Nat.le_succ n)) hl)
    · rw [List.mem_singleton.1 hl]
      exact hf level htop hok
  · unfold state
    dsimp only
    rw [htake, List.reverse_append]
    have hlevels' : (g.levels.toList.take g.depth).reverse = level :: (g.levels.toList.take n).reverse := hlevels
    rw [hlevels']
    rfl

/-! ## One byte -/

/-- A step that does what the list of levels does, and does not panic. -/
def Follows (arena : SchemaArena) (x : Except Halt GuideArray) (y : Option GuideState) : Prop :=
  (∃ g, x = .ok g ∧ g.Good arena ∧ y = some g.state) ∨ (x = .error .reject ∧ y = none)

theorem follows_ok (h : g.Good arena) : Follows arena (.ok g) (some g.state) := .inl ⟨g, rfl, h, rfl⟩

theorem follows_reject : Follows arena (.error .reject) none := .inr ⟨rfl, rfl⟩

theorem follows_bind {x : Except Halt GuideArray} {y : Option GuideState} {f : GuideArray → Except Halt GuideArray}
    {h : GuideState → Option GuideState} (hx : Follows arena x y)
    (hf : ∀ g, g.Good arena → Follows arena (f g) (h g.state)) : Follows arena (x.bind f) (y.bind h) := by
  rcases hx with ⟨g, rfl, hg, rfl⟩ | ⟨rfl, rfl⟩
  · exact hf g hg
  · exact follows_reject

theorem follows_ite {c : Bool} {x : Except Halt GuideArray} {h : GuideState → Option GuideState}
    (hg : g.Good arena) (hx : c = true → Follows arena x (h g.state)) :
    Follows arena (if c then x else .ok g) (if c then h g.state else some g.state) := by
  cases c with
  | true => exact hx rfl
  | false => exact follows_ok hg

/-- The scalar's constraint is replaced. -/
theorem Good.setVal (h : g.Good arena) {val : ValCtx}
    (henum : ∀ node alive pos, val = .enumScan node alive pos → node < arena.nodes.length)
    (hkey : ∀ alive pos any, val = .keyScan alive pos any → 0 < g.depth ∧ g.overflow = 0) :
    (g.setVal val).Good arena := ⟨h.depth_le, h.levels, henum, hkey⟩

theorem Good.setFree (h : g.Good arena) : (g.setVal .free).Good arena :=
  h.setVal (fun _ _ _ hc => by cases hc) fun _ _ _ hc => by cases hc

theorem expected_eq (hwf : arena.Wf) {root : NodeId} (hroot : root < arena.nodes.length) (h : g.Good arena) :
    g.expected arena root = .ok (g.state.expected arena root) ∧
      g.state.expected arena root < arena.nodes.length := by
  have hany : anyId < arena.nodes.length := Nat.lt_of_le_of_lt (Nat.zero_le _) hroot
  unfold expected GuideState.expected
  rw [state_overflow]
  by_cases hov : g.overflow > 0
  · rw [if_pos hov, if_pos hov]
    exact ⟨rfl, hany⟩
  · rw [if_neg hov, if_neg hov]
    by_cases hdepth : g.depth = 0
    · rw [if_pos hdepth, state_levels_nil hdepth]
      exact ⟨rfl, hroot⟩
    · obtain ⟨n, level, -, -, hok, -, htop, hlevels⟩ := top_eq h (Nat.pos_of_ne_zero hdepth)
      rw [if_neg hdepth, htop, hlevels]
      have hnode := hwf.node_wf level.node
      show (match arena.node level.node with
        | .array items => Except.ok items
        | .object props _ _ =>
            match level.curProp with
            | none => .ok anyId
            | some i => (index props i).map Prod.snd
        | _ => .ok anyId) = _ ∧ _
      dsimp only
      cases hid : arena.node level.node with
      | array items =>
          rw [hid] at hnode
          exact ⟨rfl, hnode⟩
      | object props required additional =>
          rw [hid] at hnode
          dsimp only
          cases hprop : level.curProp with
          | none => exact ⟨rfl, hany⟩
          | some i =>
              obtain ⟨props', required', additional', hid', hi⟩ := hok.curProp i hprop
              rw [hid] at hid'
              cases hid'
              dsimp only
              unfold index
              rw [List.getElem?_eq_getElem hi]
              exact ⟨rfl, hnode.2.2.1 _ (List.getElem_mem hi)⟩
      | _ => exact ⟨rfl, hany⟩

theorem hasAvailableKey_eq (hwf : arena.Wf) (h : g.Good arena) :
    g.hasAvailableKey arena = .ok (g.state.hasAvailableKey arena) := by
  unfold hasAvailableKey GuideState.hasAvailableKey
  rw [state_overflow]
  by_cases hov : g.overflow > 0
  · rw [if_pos (.inl hov), if_pos hov]
  · by_cases hdepth : g.depth = 0
    · rw [if_pos (.inr hdepth), if_neg hov, state_levels_nil hdepth]
    · obtain ⟨n, level, -, -, hok, -, htop, hlevels⟩ := top_eq h (Nat.pos_of_ne_zero hdepth)
      rw [if_neg (not_or.2 ⟨hov, hdepth⟩), if_neg hov, htop, hlevels]
      have hshift := shifted_eq hwf level.node
      dsimp only [Except.bind]
      cases hid : arena.node level.node with
      | object props required additional =>
          rw [hid] at hshift
          dsimp only
          rw [hshift]
          rfl
      | _ => rfl

theorem startKey_follows (hwf : arena.Wf) (h : g.Good arena) :
    Follows arena (g.startKey arena) (some (g.state.startKey arena)) := by
  have hfree : ∀ levels, g.state.levels = levels →
      Follows arena (.ok (g.setVal .free)) (some ⟨levels, g.overflow, .free⟩) := by
    rintro _ rfl
    exact follows_ok h.setFree
  unfold startKey GuideState.startKey
  rw [state_overflow]
  by_cases hov : g.overflow > 0
  · rw [if_pos (.inl hov), if_pos hov]
    exact hfree _ rfl
  · by_cases hdepth : g.depth = 0
    · rw [if_pos (.inr hdepth), if_neg hov, state_levels_nil hdepth]
      exact hfree _ (state_levels_nil hdepth)
    · obtain ⟨n, level, -, -, hok, -, htop, hlevels⟩ := top_eq h (Nat.pos_of_ne_zero hdepth)
      rw [if_neg (not_or.2 ⟨hov, hdepth⟩), if_neg hov, htop, hlevels]
      have hshift := shifted_eq hwf level.node
      dsimp only [Except.bind]
      cases hid : arena.node level.node with
      | object props required additional =>
          rw [hid] at hshift
          dsimp only
          rw [hshift]
          exact .inl ⟨_, rfl, h.setVal (fun _ _ _ hc => by cases hc) fun _ _ _ _ =>
            ⟨Nat.pos_of_ne_zero hdepth, Nat.eq_zero_of_not_pos hov⟩, by rw [← hlevels]; rfl⟩
      | _ => exact hfree _ hlevels

theorem content_follows (hwf : arena.Wf) (h : g.Good arena) (b : UInt8) (ev : Events) :
    Follows arena (g.content arena b ev) (g.state.content arena b ev) := by
  unfold content GuideState.content
  rw [state_val]
  cases hval : g.val with
  | free => exact follows_ok h
  | intNumber =>
      dsimp only
      split
      · exact follows_reject
      · exact follows_ok h
  | enumScan node alive pos =>
      have hnode := h.enum node alive pos hval
      dsimp only
      split
      · exact follows_ok h
      · rw [nodeAt_eq hnode]
        dsimp only [Except.bind]
        rw [shifted_eq hwf]
        have hleft : ∀ left, Follows arena
            (if left = 0#64 then .error .reject else .ok (g.setVal (.enumScan node left (nextPos pos))))
            (if left = 0#64 then none else some { g.state with val := .enumScan node left (nextPos pos) }) := by
          intro left
          split
          · exact follows_reject
          · exact follows_ok (h.setVal (fun _ _ _ hc => by cases hc; exact hnode) fun _ _ _ hc => by cases hc)
        exact hleft _
  | keyScan alive pos any =>
      have hkey := h.key alive pos any hval
      obtain ⟨n, level, -, -, hok, -, htop, hlevels⟩ := top_eq h hkey.1
      dsimp only
      split
      · exact follows_ok h
      · rw [htop, hlevels]
        dsimp only [Except.bind]
        rw [shifted_eq hwf]
        have hleft : ∀ left levels, g.state.levels = levels → Follows arena
            (if left = 0#64 ∧ any = false then .error .reject else .ok (g.setVal (.keyScan left (nextPos pos) any)))
            (if left = 0#64 ∧ any = false then none
              else some ⟨levels, g.overflow, .keyScan left (nextPos pos) any⟩) := by
          rintro left _ rfl
          split
          · exact follows_reject
          · exact follows_ok (h.setVal (fun _ _ _ hc => by cases hc) fun _ _ _ _ => hkey)
        exact hleft _ _ hlevels

/-- The pending property is forgotten. -/
theorem levelOk_forget {level : Level} (h : LevelOk arena level) : LevelOk arena { level with curProp := none } :=
  ⟨h.node_lt, h.guided, fun _ hc => by cases hc⟩

theorem finishScalar_follows (hwf : arena.Wf) (h : g.Good arena) (included : Bool) (b : UInt8) :
    Follows arena (g.finishScalar arena included b) (g.state.finishScalar arena included b) := by
  have hchecked : (match g.val with
      | .enumScan node _ _ => (arena.nodeAt node).bind SchemaNode.shifted
      | _ => Except.ok ()) = .ok () := by
    cases hval : g.val with
    | enumScan node alive pos =>
        dsimp only
        rw [nodeAt_eq (h.enum node alive pos hval)]
        exact shifted_eq hwf node
    | _ => rfl
  have hend : ∀ {x : Except Halt GuideArray} {levels : List Level},
      (∃ g', x = .ok g' ∧ g'.Good arena ∧ g'.state = ⟨levels, g.overflow, .free⟩) →
        Follows arena
          (x.bind fun g' => if GuideState.scalarMayEnd arena g.val included b then .ok g' else .error .reject)
          (if GuideState.scalarMayEnd arena g.val included b then some ⟨levels, g.overflow, .free⟩ else none) := by
    rintro x levels ⟨g', rfl, hgood, hstate⟩
    dsimp only [Except.bind]
    split
    · exact .inl ⟨g', rfl, hgood, by rw [hstate]⟩
    · exact follows_reject
  unfold finishScalar GuideState.finishScalar
  dsimp only
  rw [hchecked, state_overflow, state_val]
  refine hend ?_
  by_cases hov : g.overflow = 0
  · rw [if_pos hov]
    by_cases hdepth : 0 < g.depth
    · rw [if_pos ⟨hdepth, hov⟩]
      exact setTop_eq h.setFree hdepth fun level _ hl => levelOk_forget hl
    · rw [if_neg fun hc => hdepth hc.1]
      refine ⟨_, rfl, h.setFree, ?_⟩
      rw [state_levels_nil (Nat.eq_zero_of_not_pos hdepth)]
      have hnil : (g.setVal .free).state.levels = [] := state_levels_nil (Nat.eq_zero_of_not_pos hdepth)
      show (⟨(g.setVal .free).state.levels, g.overflow, .free⟩ : GuideState) = _
      rw [hnil]
      rfl
  · rw [if_neg hov, if_neg fun hc => hov hc.2]
    exact ⟨_, rfl, h.setFree, rfl⟩

theorem finishKey_follows (hwf : arena.Wf) (h : g.Good arena) :
    Follows arena (g.finishKey arena) (g.state.finishKey arena) := by
  unfold finishKey GuideState.finishKey
  rw [state_val]
  cases hval : g.val with
  | keyScan alive pos any =>
      have hkey := h.key alive pos any hval
      obtain ⟨n, level, -, -, hok, htop, htopNode, hlevels⟩ := top_eq h hkey.1
      have hshift := shifted_eq hwf level.node
      have hset : ∀ f : Level → Level, LevelOk arena (f level) →
          ∃ g', (g.setVal .free).setTop f = .ok g' ∧ g'.Good arena ∧
            g'.state = ⟨f level :: (g.levels.toList.take n).reverse, g.overflow, .free⟩ := by
        intro f hf
        obtain ⟨g', hg', hgood, hstate⟩ := setTop_eq h.setFree hkey.1 (f := f) fun l hl _ => by
          rw [show (g.setVal .free).top = g.top from rfl, htop] at hl
          cases hl
          exact hf
        refine ⟨g', hg', hgood, ?_⟩
        rw [hstate, show (g.setVal .free).state.levels = g.state.levels from rfl, hlevels]
        rfl
      dsimp only
      rw [htopNode, hlevels]
      dsimp only [Except.bind]
      cases hid : arena.node level.node with
      | object props required additional =>
          rw [hid] at hshift
          dsimp only
          rw [hshift]
          dsimp only
          cases hfind : (List.range props.length).find? fun i =>
              alive.getLsbD i && ((props[i]?).map fun p => p.1.length) == some pos with
          | some i =>
              have hi : i < props.length := List.mem_range.1 (List.mem_of_find?_eq_some hfind)
              obtain ⟨g', hg', hgood, hstate⟩ := hset
                (fun level => { level with emitted := level.emitted ||| (1#64 <<< i), curProp := some i })
                ⟨hok.node_lt, hok.guided, fun j hj => by cases hj; exact ⟨props, required, additional, hid, hi⟩⟩
              exact .inl ⟨g', hg', hgood, congrArg some hstate.symm⟩
          | none =>
              obtain ⟨g', hg', hgood, hstate⟩ := hset ({ · with curProp := none }) (levelOk_forget hok)
              dsimp only
              rw [hg']
              cases any with
              | true => exact .inl ⟨g', rfl, hgood, congrArg some hstate.symm⟩
              | false => exact follows_reject
      | _ => exact .inl ⟨_, rfl, h.setFree, by rw [← hlevels]; rfl⟩
  | _ => exact follows_ok h.setFree

/-- A value starts no scan of a key, and scans the enum it is checked against. -/
theorem startScalar_val {node : NodeId} {b : UInt8} {val : ValCtx}
    (h : GuideState.startScalar arena node b = some val) :
    (∀ id alive pos, val = .enumScan id alive pos → id = node) ∧ ∀ alive pos any, val ≠ .keyScan alive pos any := by
  have hplain : val = .free ∨ val = .intNumber →
      (∀ id alive pos, val = .enumScan id alive pos → id = node) ∧ ∀ alive pos any, val ≠ .keyScan alive pos any := by
    rintro (rfl | rfl)
    · exact ⟨fun _ _ _ hc => (by cases hc), fun _ _ _ hc => (by cases hc)⟩
    · exact ⟨fun _ _ _ hc => (by cases hc), fun _ _ _ hc => (by cases hc)⟩
  unfold GuideState.startScalar at h
  cases hid : arena.node node with
  | any =>
      rw [hid] at h
      cases h
      exact hplain (.inl rfl)
  | number integer =>
      rw [hid] at h
      obtain ⟨-, h⟩ := Option.ite_none_right_eq_some.1 h
      cases integer with
      | true =>
          cases h
          exact hplain (.inr rfl)
      | false =>
          cases h
          exact hplain (.inl rfl)
  | enum literals =>
      rw [hid] at h
      obtain ⟨-, h⟩ := Option.ite_none_left_eq_some.1 h
      cases h
      exact ⟨fun _ _ _ hc => (by cases hc; rfl), fun _ _ _ hc => (by cases hc)⟩
  | _ =>
      rw [hid] at h
      obtain ⟨-, h⟩ := Option.ite_none_right_eq_some.1 h
      cases h
      exact hplain (.inl rfl)

/-- A level is written above those in use. -/
theorem push_eq (h : g.Good arena) (hdepth : g.depth < guidedDepth) {level : Level} (hlevel : LevelOk arena level) :
    ∃ g', (g.setLevel g.depth level).map (fun g => { g with depth := g.depth + 1 }) = .ok g' ∧ g'.Good arena ∧
      g'.state = { g.state with levels := level :: g.state.levels } := by
  have htake : (g.levels.set g.depth level).toList.take (g.depth + 1) = g.levels.toList.take g.depth ++ [level] := by
    have hlen : g.depth < (g.levels.toList.set g.depth level).length := by
      rw [List.length_set, Vector.length_toList]
      exact hdepth
    rw [Vector.toList_set, List.take_succ_eq_append_getElem hlen, List.getElem_set_self, List.take_set_of_le le_rfl]
  have hset : g.setLevel g.depth level = .ok { g with levels := g.levels.set g.depth level } := dif_pos hdepth
  rw [hset]
  refine ⟨_, rfl, ⟨hdepth, fun l hl => ?_, h.enum, fun alive pos any hc => ⟨Nat.succ_pos _, (h.key alive pos any hc).2⟩⟩, ?_⟩
  · have hl : l ∈ (g.levels.set g.depth level).toList.take (g.depth + 1) := hl
    rw [htake] at hl
    rcases List.mem_append.1 hl with hl | hl
    · exact h.levels l hl
    · rw [List.mem_singleton.1 hl]
      exact hlevel
  · unfold state
    dsimp only
    rw [htake, List.reverse_append]
    rfl

theorem enterValue_follows (hwf : arena.Wf) (h : g.Good arena) {node : NodeId} (hnode : node < arena.nodes.length)
    (b : UInt8) : Follows arena (g.enterValue arena node b) (g.state.enterValue arena node b) := by
  unfold enterValue GuideState.enterValue
  rw [nodeAt_eq hnode]
  dsimp only [Except.bind]
  rw [shifted_eq hwf]
  dsimp only
  cases hval : GuideState.startScalar arena node b with
  | none => exact follows_reject
  | some val =>
      obtain ⟨henum, hkey⟩ := startScalar_val hval
      have hgood : (g.setVal val).Good arena :=
        h.setVal (fun id alive pos hc => by rw [henum id alive pos hc]; exact hnode)
          fun alive pos any hc => absurd hc (hkey alive pos any)
      have hlen : g.state.levels.length = g.depth := by
        unfold state
        rw [List.length_reverse, List.length_take, Vector.length_toList]
        exact Nat.min_eq_left h.depth_le
      dsimp only [Option.map_some]
      rw [hlen, state_overflow]
      by_cases hopen : b = 0x7B ∨ b = 0x5B
      · rw [if_pos hopen, if_pos hopen]
        by_cases hfull : g.overflow > 0 ∨ g.depth ≥ guidedDepth
        · rw [if_pos hfull, if_pos hfull]
          exact .inl ⟨_, rfl, ⟨h.depth_le, h.levels, hgood.enum, fun alive pos any hc =>
            absurd hc (hkey alive pos any)⟩, rfl⟩
        · rw [if_neg hfull, if_neg hfull]
          obtain ⟨hov, hdepth⟩ := not_or.1 hfull
          have hany : anyId < arena.nodes.length := Nat.lt_of_le_of_lt (Nat.zero_le _) hnode
          have hlevel : ∀ id, id < arena.nodes.length → (arena.node id).guided = true →
              Follows arena
                (((g.setVal val).setLevel g.depth ⟨id, 0#64, none⟩).map fun g => { g with depth := g.depth + 1 })
                (some ⟨⟨id, 0#64, none⟩ :: g.state.levels, g.overflow, val⟩) := by
            intro id hid hguided
            have hlevel : LevelOk arena ⟨id, 0#64, none⟩ := ⟨hid, hguided, fun _ hc => by cases hc⟩
            obtain ⟨g', hg', hgood', hstate⟩ := push_eq hgood (Nat.lt_of_not_le hdepth) hlevel
            exact .inl ⟨g', hg', hgood', congrArg some hstate.symm⟩
          have hanyGuided : (arena.node anyId).guided = true := by rw [hwf.node_any]; rfl
          cases hid : arena.node node with
          | object props required additional => exact hlevel node hnode (by rw [hid]; rfl)
          | array items => exact hlevel node hnode (by rw [hid]; rfl)
          | _ => exact hlevel anyId hany hanyGuided
      · rw [if_neg hopen, if_neg hopen]
        exact follows_ok hgood

theorem closeContainer_follows (h : g.Good arena) :
    Follows arena (g.closeContainer arena) (g.state.closeContainer arena) := by
  unfold closeContainer GuideState.closeContainer
  rw [state_overflow]
  by_cases hov : g.overflow > 0
  · rw [if_pos hov, if_pos hov]
    refine .inl ⟨_, rfl, ⟨h.depth_le, h.levels, h.enum, fun alive pos any hc => ?_⟩, rfl⟩
    have := (h.key alive pos any hc).2
    omega
  · rw [if_neg hov, if_neg hov]
    by_cases hdepth : g.depth = 0
    · rw [if_pos hdepth, state_levels_nil hdepth]
      exact follows_ok h
    · obtain ⟨n, level, hn, hlt, hok, -, htop, hlevels⟩ := top_eq h (Nat.pos_of_ne_zero hdepth)
      let g₁ : GuideArray := { g with depth := g.depth - 1, val := .free }
      have hdepth₁ : g₁.depth = n := by
        show g.depth - 1 = n
        omega
      have hgood₁ : g₁.Good arena := by
        refine ⟨?_, fun l hl => h.levels l ?_, fun _ _ _ hc => (by cases hc), fun _ _ _ hc => (by cases hc)⟩
        · have := h.depth_le
          show g.depth - 1 ≤ guidedDepth
          omega
        · exact (List.take_subset_take_left _ (Nat.sub_le _ _)) hl
      have hstate₁ : g₁.state = ⟨(g.levels.toList.take n).reverse, g.overflow, .free⟩ := by
        show (⟨(g.levels.toList.take g₁.depth).reverse, g.overflow, .free⟩ : GuideState) = _
        rw [hdepth₁]
      have hset : ∃ g', (if g₁.depth > 0 then g₁.setTop ({ · with curProp := none }) else .ok g₁) = .ok g' ∧
          g'.Good arena ∧
            g'.state = ⟨GuideState.mapTop ({ · with curProp := none }) (g.levels.toList.take n).reverse, g.overflow, .free⟩ := by
        by_cases hpos : g₁.depth > 0
        · rw [if_pos hpos]
          obtain ⟨g', hg', hgood', hstate'⟩ := setTop_eq hgood₁ hpos fun level _ hl => levelOk_forget hl
          exact ⟨g', hg', hgood', by rw [hstate', hstate₁]⟩
        · rw [if_neg hpos]
          refine ⟨g₁, rfl, hgood₁, ?_⟩
          have hzero : n = 0 := by omega
          rw [hstate₁, hzero]
          rfl
      obtain ⟨g', hg', hgood', hstate'⟩ := hset
      have hend : ∀ ok : Bool, Follows arena
          ((if g₁.depth > 0 then g₁.setTop ({ · with curProp := none }) else .ok g₁).bind fun g =>
            if ok then .ok g else .error .reject)
          (if ok then some ⟨GuideState.mapTop ({ · with curProp := none }) (g.levels.toList.take n).reverse,
            g.overflow, .free⟩ else none) := by
        intro ok
        rw [hg']
        cases ok with
        | true => exact .inl ⟨g', rfl, hgood', congrArg some hstate'.symm⟩
        | false => exact follows_reject
      rw [if_neg hdepth, htop, hlevels]
      exact hend _

/-- What a byte does to the array it does to the list, and it never panics. -/
theorem onByte_follows (hwf : arena.Wf) {root : NodeId} (hroot : root < arena.nodes.length) (h : g.Good arena)
    (b : UInt8) (ev : Events) (wasNum : Bool) :
    Follows arena (g.onByte arena root b ev wasNum) (g.state.onByte arena root b ev wasNum) := by
  unfold onByte GuideState.onByte
  refine follows_bind (follows_ite (h := fun g => g.finishScalar arena false b) h fun _ =>
    finishScalar_follows hwf h false b) fun g hg => ?_
  have havail : (if ev.objComma then g.hasAvailableKey arena else .ok true) =
      .ok (!(ev.objComma && !g.state.hasAvailableKey arena)) := by
    cases ev.objComma with
    | true =>
        rw [if_pos rfl, hasAvailableKey_eq hwf hg, Bool.true_and, Bool.not_not]
    | false => rfl
  rw [havail]
  dsimp only [Except.bind]
  rw [Bool.not_not]
  by_cases hcomma : (ev.objComma && !g.state.hasAvailableKey arena) = true
  · rw [if_pos hcomma, if_pos hcomma]
    exact follows_reject
  · rw [if_neg hcomma, if_neg hcomma]
    refine follows_bind ?_ fun g hg => ?_
    · by_cases hvalue : ev.valueStart = true
      · rw [if_pos hvalue, if_pos hvalue]
        obtain ⟨hexpected, hlt⟩ := expected_eq hwf hroot hg
        rw [hexpected]
        exact enterValue_follows hwf hg hlt b
      · rw [if_neg hvalue, if_neg hvalue]
        by_cases hkey : ev.keyStart = true
        · rw [if_pos hkey, if_pos hkey, hasAvailableKey_eq hwf hg]
          dsimp only [Except.bind]
          by_cases havail : g.state.hasAvailableKey arena = true
          · rw [if_pos havail, if_pos havail]
            exact startKey_follows hwf hg
          · rw [if_neg havail, if_neg havail]
            exact follows_reject
        · rw [if_neg hkey, if_neg hkey]
          exact content_follows hwf hg b ev
    · refine follows_bind (follows_ite (h := fun g => g.finishScalar arena true b) hg fun _ =>
        finishScalar_follows hwf hg true b) fun g hg => ?_
      refine follows_bind (follows_ite (h := fun g => g.finishKey arena) hg fun _ => finishKey_follows hwf hg)
        fun g hg => ?_
      exact follows_ite (h := fun g => g.closeContainer arena) hg fun _ => closeContainer_follows hg

end

end GuideArray

end Oxydllm.Constrain
