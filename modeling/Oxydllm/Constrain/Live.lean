/-
# Oxydllm.Constrain.Live — nodes under which a value can always be finished.

A guided object can be closed only when every required property has been written, and a key, a string or
a literal can be written only if the byte automaton lets its spelling through. `Live` asks exactly that
of every node that can come to govern a position, as deep as guidance reaches; under a live node there
is always some value (`exists_value`), and an object that has been started can be finished
(`object_from_members`). `ok` is the class of bytes the rest of the document may be written with.
-/
import Oxydllm.Constrain.Context

namespace Oxydllm.Constrain

open JsonText GuideState

/-- A run of spaces the automaton refuses. -/
def spaceRunTooLong : List UInt8 := List.replicate (maxWhitespaceRun + 1) 0x20

/-- A name some key spells byte for byte, within what the automaton and the walker's position allow. -/
def Typable (name : List UInt8) : Prop :=
  (∃ s : Str, Str.body s = name) ∧ ¬ spaceRunTooLong <:+: name ∧ name.length < 65536

/-- A literal the automaton lets through, within the walker's position. -/
def Matchable (l : List UInt8) : Prop := ¬ spaceRunTooLong <:+: l ∧ l.length ≤ 65536

/-- Under the node a value can always be finished with `ok` bytes; `n` is how many levels guidance still
reaches. -/
def Live (arena : SchemaArena) (ok : UInt8 → Prop) : Nat → NodeId → Prop
  | 0, id =>
      match arena.node id with
      | .enum literals => ∀ l ∈ literals, Matchable l ∧ ∀ b ∈ l, ok b
      | _ => True
  | n + 1, id =>
      match arena.node id with
      | .enum literals => ∀ l ∈ literals, Matchable l ∧ ∀ b ∈ l, ok b
      | .object props required additional =>
          (∀ i p, props[i]? = some p → required.getLsbD i = true ∨ additional = false →
            Typable p.1 ∧ ∀ b ∈ p.1, ok b) ∧
          ∀ p ∈ props, Typable p.1 → Live arena ok n p.2
      | .array items => Live arena ok n items
      | _ => True

/-- What the node of an open container opened by `b` promises of the values inside. -/
def LevelLive (arena : SchemaArena) (ok : UInt8 → Prop) (n : Nat) (b : UInt8) (node : NodeId) : Prop :=
  match arena.node node with
  | .object props required additional =>
      b = 0x7B ∧
        (∀ i p, props[i]? = some p → required.getLsbD i = true ∨ additional = false →
          Typable p.1 ∧ ∀ b ∈ p.1, ok b) ∧
        ∀ p ∈ props, Typable p.1 → Live arena ok n p.2
  | .array items => b = 0x5B ∧ Live arena ok n items
  | _ => True

theorem live_any {arena : SchemaArena} (hwf : arena.Wf) (ok : UInt8 → Prop) (n : Nat) :
    Live arena ok n anyId := by
  cases n <;> simp [Live, hwf.node_any]

section

variable {arena : SchemaArena} {ok : UInt8 → Prop}

/-- The guide where a value may start, inside `k` open containers. -/
structure Room (arena : SchemaArena) (ok : UInt8 → Prop) (k : Nat) (g : GuideState) : Prop where
  val_free : g.val = .free
  count : g.overflow + g.levels.length = k
  guided : g.levels.length ≤ guidedDepth
  live : g.overflow = 0 → Live arena ok (guidedDepth - g.levels.length) (g.expected arena arena.root)

/-- The guide inside a container opened by `b`, the innermost of `k`. -/
structure Opened (arena : SchemaArena) (ok : UInt8 → Prop) (b : UInt8) (k : Nat) (g : GuideState) :
    Prop where
  val_free : g.val = .free
  count : g.overflow + g.levels.length = k
  guided : g.levels.length ≤ guidedDepth
  level : g.overflow = 0 → ∃ level rest, g.levels = level :: rest ∧
    LevelLive arena ok (guidedDepth - g.levels.length) b level.node

/-! ## Moving between the two -/

theorem Room.enter (hwf : arena.Wf) {k : Nat} {g g₁ : GuideState} {b : UInt8}
    (hb : b = 0x7B ∨ b = 0x5B) (h : Room arena ok k g) (hk : k < maxDepth)
    (he : g.enter arena arena.root b = some g₁) : Opened arena ok b (k + 1) g₁ := by
  obtain ⟨-, hcount, hguided, hlive⟩ := h
  obtain ⟨hval, hnode⟩ := startScalar_open hwf hb (enterValue_val he)
  have hmax : g.overflow < 255 := by simp only [maxDepth] at hk; omega
  rcases enter_container hb hmax he with ⟨ho, hlt, ho₁, hl₁⟩ | ⟨hdeep, ho₁, hl₁⟩
  · have hlen : g₁.levels.length = g.levels.length + 1 := by simp [hl₁]
    refine ⟨hval, by omega, by omega, fun _ => ⟨_, _, hl₁, ?_⟩⟩
    have hn : guidedDepth - g.levels.length = (guidedDepth - g₁.levels.length) + 1 := by omega
    have hlive' := hlive ho
    rw [hn] at hlive'
    simp only [levelNode]
    -- the level's node is the one that governed the value, or none when that takes everything
    rcases hnode with hany | ⟨hb, props, required, additional, hobj⟩ | ⟨hb, items, harr⟩
    · simp [hany, LevelLive, hwf.node_any]
    · simp only [hobj, LevelLive]
      simp only [Live, hobj] at hlive'
      exact ⟨hb, hlive'⟩
    · simp only [harr, LevelLive]
      simp only [Live, harr] at hlive'
      exact ⟨hb, hlive'⟩
  · have hlen : g₁.levels.length = g.levels.length := by rw [hl₁]
    exact ⟨hval, by omega, by omega, fun h => by omega⟩

theorem Opened.keeps {k : Nat} {g g' : GuideState} {b : UInt8} (h : Opened arena ok b k g)
    (hkeeps : Keeps g g') (hval : g'.val = .free) : Opened arena ok b k g' := by
  obtain ⟨-, hcount, hguided, hlevel⟩ := h
  obtain ⟨ho, f, hf, hl⟩ := hkeeps
  have hlen : g'.levels.length = g.levels.length := by rw [hl, mapTop_length]
  refine ⟨hval, by rw [ho, hlen, hcount], by rw [hlen]; exact hguided, fun ho' => ?_⟩
  obtain ⟨level, rest, hlevels, hlive⟩ := hlevel (by rw [← ho, ho'])
  refine ⟨f level, rest, by rw [hl, hlevels]; rfl, ?_⟩
  rw [hlen, (hf level).1]
  exact hlive

/-- An element may start anywhere between the brackets of an array. -/
theorem Opened.item (hwf : arena.Wf) {k : Nat} {g : GuideState} (h : Opened arena ok 0x5B k g) :
    Room arena ok k g := by
  obtain ⟨hval, hcount, hguided, hlevel⟩ := h
  refine ⟨hval, hcount, hguided, fun ho => ?_⟩
  obtain ⟨level, rest, hl, hlive⟩ := hlevel ho
  cases hnode : arena.node level.node with
  | array items =>
      simp only [LevelLive, hnode] at hlive
      rw [expected_array ho hl hnode]
      exact hlive.2
  | object props required additional =>
      simp only [LevelLive, hnode] at hlive
      exact absurd hlive.1 (by decide)
  | _ =>
      have hexp : g.expected arena arena.root = anyId := by simp [expected, ho, hl, hnode]
      rw [hexp]
      exact live_any hwf ok _

/-- Behind a key that the automaton lets through a value may start. -/
theorem Opened.value (hwf : arena.Wf) {k : Nat} {g g' : GuideState} {key : Str}
    (h : Opened arena ok 0x7B k g) (hkey : readable.str key) (hk : g.keyGuide arena key = some g') :
    Room arena ok k g' := by
  have hkeeps := keyGuide_keeps hk
  obtain ⟨hval', hcount', hguided', -⟩ := h.keeps hkeeps (keyGuide_val hk)
  refine ⟨hval', hcount', hguided', fun ho' => ?_⟩
  have ho : g.overflow = 0 := by rw [← hkeeps.overflow_eq, ho']
  obtain ⟨level, rest, hl, hlive⟩ := h.level ho
  have hlen : g'.levels.length = g.levels.length := by
    obtain ⟨-, f, -, hl'⟩ := hkeeps
    rw [hl', mapTop_length]
  rw [hlen]
  cases hnode : arena.node level.node with
  | object props required additional =>
      have hobj := hwf.node_wf level.node
      rw [hnode] at hobj
      obtain ⟨hsize, hkeys, -, -⟩ := hobj
      simp only [LevelLive, hnode] at hlive
      by_cases hname : ∃ i, Names props level.emitted (Str.body key) i
      · obtain ⟨i, hname⟩ := hname
        rw [keyGuide_declared ho hl hnode hsize hkeys hname] at hk
        cases hk
        obtain ⟨-, hlong, id, hp⟩ := hname
        have hexp : expected arena arena.root { g with
            levels := { level with emitted := level.emitted ||| (1#64 <<< i), curProp := some i } :: rest
            val := .free } = id := by simp [expected, ho, hnode, hp]
        rw [hexp]
        refine hlive.2.2 _ (List.mem_of_getElem? hp) ⟨⟨key, rfl⟩, ?_, hlong⟩
        simpa [spaceRunTooLong] using (spacesFit_iff (r := 0) (by omega) _).1 hkey
      · push Not at hname
        rw [keyGuide_unknown ho hl hnode hsize hname] at hk
        obtain ⟨-, hk⟩ := Option.ite_none_right_eq_some.1 hk
        cases hk
        have hexp : expected arena arena.root
            { g with levels := { level with curProp := none } :: rest, val := .free } = anyId := by
          simp [expected, ho, hnode]
        rw [hexp]
        exact live_any hwf ok _
  | array items =>
      simp only [LevelLive, hnode] at hlive
      exact absurd hlive.1 (by decide)
  | _ =>
      obtain ⟨-, f, hf, hl'⟩ := hkeeps
      rw [hl] at hl'
      have hexp : g'.expected arena arena.root = anyId := by
        have hnode' : arena.node (f level).node = arena.node level.node := by rw [(hf level).1]
        simp [expected, ho', hl', mapTop, hnode', hnode]
      rw [hexp]
      exact live_any hwf ok _

/-- A container that is no guided object closes at any time. -/
theorem closes_of_not_object {g : GuideState}
    (h : g.overflow = 0 → ∃ level rest, g.levels = level :: rest ∧
      ∀ props required additional, arena.node level.node ≠ .object props required additional) :
    ∃ g', g.closeContainer arena = some g' := by
  unfold closeContainer
  by_cases ho : g.overflow > 0
  · rw [if_pos ho]
    exact ⟨_, rfl⟩
  · obtain ⟨level, rest, hl, hnode⟩ := h (by omega)
    rw [if_neg ho, hl]
    cases hn : arena.node level.node with
    | object props required additional => exact absurd hn (hnode _ _ _)
    | _ => simp [hn]

/-- A guided object closes once every required property has been written. -/
theorem closes_object {g : GuideState} {level : Level} {rest : List Level}
    {props : List (List UInt8 × NodeId)} {required : BitVec 64} {additional : Bool} (ho : g.overflow = 0)
    (hl : g.levels = level :: rest) (hnode : arena.node level.node = .object props required additional)
    (hdone : level.emitted &&& required = required) : ∃ g', g.closeContainer arena = some g' := by
  rw [closeContainer, if_neg (by omega), hl]
  simp [hnode, hdone]

theorem Opened.closes_array {k : Nat} {g : GuideState} (h : Opened arena ok 0x5B k g) :
    ∃ g', g.closeContainer arena = some g' := by
  refine closes_of_not_object fun ho => ?_
  obtain ⟨level, rest, hl, hlive⟩ := h.level ho
  refine ⟨level, rest, hl, fun props required additional hnode => ?_⟩
  simp only [LevelLive, hnode] at hlive
  exact absurd hlive.1 (by decide)

/-! ## Supplying values -/

/-- A value the guide takes at `g`, inside `k` open containers, written with `ok` bytes. -/
structure Supplied (arena : SchemaArena) (ok : UInt8 → Prop) (k : Nat) (g : GuideState) (v : Value)
    (g' : GuideState) : Prop where
  all : v.All readable
  depth : v.depth + k ≤ maxDepth
  ok_bytes : ∀ b ∈ v.print, ok b
  takes : valueGuide arena arena.root v g = some g'

/-- Wherever `len` levels are in use a value can be supplied. -/
def SuppliesAt (arena : SchemaArena) (ok : UInt8 → Prop) (len : Nat) : Prop :=
  ∀ k g, Room arena ok k g → k ≤ maxDepth → g.overflow = 0 → g.levels.length = len →
    ∃ v g', Supplied arena ok k g v g'

theorem enter_of_start {g : GuideState} {b : UInt8} {val : ValCtx}
    (h : startScalar arena (g.expected arena arena.root) b = some val) :
    ∃ g₁, g.enter arena arena.root b = some g₁ ∧ g₁.val = val := by
  have he : ∃ g₁, g.enter arena arena.root b = some g₁ := by
    unfold GuideState.enter enterValue
    rw [h]
    exact ⟨_, rfl⟩
  obtain ⟨g₁, he⟩ := he
  have hval := enterValue_val he
  rw [h] at hval
  exact ⟨g₁, he, (Option.some.inj hval).symm⟩

/-- A scalar under no constraint is taken whole. -/
theorem closed_of_free {g g₁ : GuideState} {b c : UInt8} {w : List UInt8}
    (he : g.enter arena arena.root b = some g₁) (hval : g₁.val = .free) :
    ∃ g', g.closedGuide arena arena.root (b :: (w ++ [c])) = some g' := by
  rw [closedGuide, he, Option.bind_some, List.dropLast_concat, reads_free hval, Option.bind_some, finishScalar,
    hval]
  exact ⟨_, rfl⟩

/-- A number whose content the guide lets through may end unless an enum scans it. -/
theorem number_settles {g g₁ : GuideState} {n : Number}
    (h : g.numberGuide arena arena.root n.print = some g₁)
    (hval : g₁.val = .free ∨ g₁.val = .intNumber) : ∃ g', valueGuide arena arena.root (.num n) g = some g' := by
  rw [valueGuide, h, Option.bind_some, settle, if_pos rfl, finishScalar]
  rcases hval with hval | hval <;> rw [hval] <;> exact ⟨_, rfl⟩

theorem readable_str {s : Str} (h : ¬ spaceRunTooLong <:+: Str.body s) : readable.str s := by
  refine (spacesFit_iff (r := 0) (by omega) _).2 fun hrun => h ?_
  rwa [List.replicate_zero, List.nil_append] at hrun

theorem readable_of_matchable {s : Str} (h : Matchable (Str.print s)) : readable.str s := by
  have hbody : Str.body s <:+: Str.print s := ⟨[0x22], [0x22], rfl⟩
  exact readable_str fun hrun => h.1 (hrun.trans hbody)

theorem readable_of_typable {s : Str} (h : Typable (Str.body s)) : readable.str s := readable_str h.2.1

/-- A literal of an enum is taken if the walker's position can count it. -/
theorem enum_takes (hwf : arena.Wf) {g : GuideState} {literals : List (List UInt8)} {v : Value}
    (hnode : arena.node (g.expected arena arena.root) = .enum literals) (hv : v.isScalar)
    (hmem : v.print ∈ literals) (hlen : v.print.length ≤ 65536) :
    ∃ g', valueGuide arena arena.root v g = some g' := by
  cases v with
  | lit l =>
      cases l with
      | true => exact closed_of_mem (w := [0x72, 0x75]) hwf (by decide) hnode hmem (by decide)
      | false => exact closed_of_mem (w := [0x61, 0x6C, 0x73]) hwf (by decide) hnode hmem (by decide)
      | null => exact closed_of_mem (w := [0x75, 0x6C]) hwf (by decide) hnode hmem (by decide)
  | num n => exact number_of_mem hwf hnode hmem
  | str s => exact closed_of_mem hwf (by decide) hnode hmem hlen
  | _ => cases hv

/-- A literal of a live enum is taken. -/
theorem literal_takes (hwf : arena.Wf) {g : GuideState} {literals : List (List UInt8)} {v : Value}
    (hnode : arena.node (g.expected arena arena.root) = .enum literals) (hv : v.isScalar)
    (hmem : v.print ∈ literals) (hmatch : Matchable v.print) :
    v.All readable ∧ ∃ g', valueGuide arena arena.root v g = some g' := by
  refine ⟨?_, enum_takes hwf hnode hv hmem hmatch.2⟩
  cases v with
  | str s => exact readable_of_matchable hmatch
  | lit l => trivial
  | num n => trivial
  | _ => cases hv

theorem scalar_depth {v : Value} (h : v.isScalar) : v.depth = 0 := by
  cases v <;> first | rfl | cases h

/-- Where everything is taken, `null` is. -/
theorem supply_any (hok : ∀ b, isSpace b = false → ok b) {k : Nat} {g : GuideState} (hk : k ≤ maxDepth)
    (hnode : arena.node (g.expected arena arena.root) = .any) :
    ∃ v g', Supplied arena ok k g v g' := by
  have hstart : startScalar arena (g.expected arena arena.root) 0x6E = some .free := by
    simp [startScalar, hnode]
  obtain ⟨g₁, he, hval⟩ := enter_of_start hstart
  obtain ⟨g', htakes⟩ := closed_of_free (c := 0x6C) (w := [0x75, 0x6C]) he hval
  refine ⟨.lit .null, g', trivial, by simpa [Value.depth] using hk, ?_, htakes⟩
  intro b hb
  simp only [Value.print, Literal.print, List.mem_cons, List.not_mem_nil, or_false] at hb
  exact hok b (by rcases hb with rfl | rfl | rfl | rfl <;> rfl)

/-- A declared property and a value for it. -/
theorem supply_member (hwf : arena.Wf) (hok : ∀ b, isSpace b = false → ok b) {k : Nat}
    {g : GuideState} {level : Level} {rest : List Level}
    {props : List (List UInt8 × NodeId)} {required : BitVec 64} {additional : Bool}
    (hsup : SuppliesAt arena ok g.levels.length) (ho : g.overflow = 0) (hl : g.levels = level :: rest)
    (hnode : arena.node level.node = .object props required additional)
    (hopen : Opened arena ok 0x7B k g) (hk : k ≤ maxDepth) {i : Nat} {p : List UInt8 × NodeId}
    (hp : props[i]? = some p) (hbit : level.emitted.getLsbD i = false) (htyp : Typable p.1)
    (hokp : ∀ b ∈ p.1, ok b) :
    ∃ key v g₁ g₂, readable.str key ∧ g.keyGuide arena key = some g₁ ∧ Supplied arena ok k g₁ v g₂ ∧
      (∀ b ∈ Str.print key, ok b) ∧ ∃ level', g₂.levels = level' :: rest ∧ level'.node = level.node ∧
        level'.emitted = level.emitted ||| (1#64 <<< i) := by
  have hobj := hwf.node_wf level.node
  rw [hnode] at hobj
  obtain ⟨hsize, hkeys, -, -⟩ := hobj
  obtain ⟨⟨key, hkey⟩, hspaces, hlong⟩ := htyp
  have hname : Names props level.emitted (Str.body key) i :=
    ⟨hbit, by rw [hkey]; exact hlong, p.2, by rw [hp, hkey]⟩
  have hkguide := keyGuide_declared ho hl hnode hsize hkeys hname
  have hread : readable.str key := readable_of_typable ⟨⟨key, rfl⟩, by rw [hkey]; exact ⟨hspaces, hlong⟩⟩
  have hroom := hopen.value hwf hread hkguide
  have hlen : ∀ l' : Level, (l' :: rest).length = g.levels.length := fun l' => by rw [hl]; rfl
  obtain ⟨v, g₂, hv⟩ := hsup _ _ hroom hk ho (hlen _)
  have hdepth := hv.depth
  have hkeeps := valueGuide_keeps v (by simp only [ho]; simp only [maxDepth] at hdepth; omega) hv.takes
  obtain ⟨level', hl', hnode', hemitted⟩ := hkeeps.level rfl
  refine ⟨key, v, _, g₂, hread, hkguide, hv, ?_, level', hl', hnode', hemitted⟩
  intro b hb
  simp only [Str.print, List.mem_cons, List.mem_append, List.not_mem_nil, or_false, hkey] at hb
  rcases hb with rfl | hb | rfl
  · exact hok _ rfl
  · exact hokp b hb
  · exact hok _ rfl

/-- The required properties still missing are supplied one after the other, and the object closes. -/
theorem supply_members (hwf : arena.Wf) (hok : ∀ b, isSpace b = false → ok b) {k : Nat} {node : NodeId}
    {rest : List Level} {props : List (List UInt8 × NodeId)} {required : BitVec 64} {additional : Bool}
    (hnode : arena.node node = .object props required additional) (hk : k ≤ maxDepth)
    (hsup : SuppliesAt arena ok (rest.length + 1))
    (hneed : ∀ i p, props[i]? = some p → required.getLsbD i = true → Typable p.1 ∧ ∀ b ∈ p.1, ok b)
    (is : List Nat) {g₁ g₂ : GuideState} {level : Level} {members : Members} (ho : g₂.overflow = 0)
    (hl : g₂.levels = level :: rest) (hlevel : level.node = node) (hopen : Opened arena ok 0x7B k g₂)
    (hrest : ∀ i, required.getLsbD i = true → level.emitted.getLsbD i = true ∨ i ∈ is)
    (hall : members.All readable) (hd : members.depth + k ≤ maxDepth)
    (hg : membersGuide arena arena.root members g₁ = some g₂) :
    ∃ members' s g₃ g₄, members'.print = members.print ++ s ∧ (∀ b ∈ s, ok b) ∧ members'.All readable ∧
      members'.depth + k ≤ maxDepth ∧ membersGuide arena arena.root members' g₁ = some g₃ ∧
      g₃.closeContainer arena = some g₄ := by
  have hobj := hwf.node_wf node
  rw [hnode] at hobj
  obtain ⟨-, -, -, hreq⟩ := hobj
  induction is generalizing g₂ level members with
  | nil =>
      have hdone : level.emitted &&& required = required := by
        refine Mask.and_eq_right_iff.2 fun i _ hbit => ?_
        simpa using hrest i hbit
      obtain ⟨g₄, hclose⟩ := closes_object ho hl (hlevel ▸ hnode) hdone
      exact ⟨members, [], g₂, g₄, by simp, by simp, hall, hd, hg, hclose⟩
  | cons i is ih =>
      by_cases hmissing : required.getLsbD i = true ∧ level.emitted.getLsbD i = false
      · obtain ⟨hbit, hunset⟩ := hmissing
        obtain ⟨p, hp⟩ : ∃ p, props[i]? = some p := ⟨_, List.getElem?_eq_getElem (hreq i hbit)⟩
        obtain ⟨htyp, hokp⟩ := hneed i p hp hbit
        have hlen : g₂.levels.length = rest.length + 1 := by rw [hl]; rfl
        obtain ⟨key, v, g₃, g₄, hread, hkey, hv, hokkey, level', hl', hnode', hemitted⟩ :=
          supply_member hwf hok (by rw [hlen]; exact hsup) ho hl (by rw [hlevel]; exact hnode) hopen hk hp
            hunset htyp hokp
        have hkkeeps := keyGuide_keeps hkey
        have hvkeeps := valueGuide_keeps v (by
          rw [hkkeeps.overflow_eq, ho]
          have := hv.depth
          simp only [maxDepth] at this
          omega) hv.takes
        have hopen' := hopen.keeps (hkkeeps.trans hvkeeps.keeps) (valueGuide_val hwf v hv.takes)
        have hg' : membersGuide arena arena.root (.snoc members .empty key .empty .empty v .empty) g₁ =
            some g₄ := by
          rw [membersGuide, hg, Option.bind_some, commaGuide_of_key hkey, Option.bind_some, hkey,
            Option.bind_some, hv.takes]
        have hrest' : ∀ j, required.getLsbD j = true → level'.emitted.getLsbD j = true ∨ j ∈ is := by
          intro j hj
          rw [hemitted, Mask.getLsbD_insert (BitVec.lt_of_getLsbD hj), Bool.or_eq_true, decide_eq_true_eq]
          rcases hrest j hj with h | h
          · exact .inl (.inl h)
          · rcases List.mem_cons.1 h with rfl | h
            · exact .inl (.inr rfl)
            · exact .inr h
        have hall' : Members.All readable (.snoc members .empty key .empty .empty v .empty) :=
          ⟨hall, gap_empty _, hread, gap_empty _, gap_empty _, hv.all, gap_empty _⟩
        have hd' : Members.depth (.snoc members .empty key .empty .empty v .empty) + k ≤ maxDepth := by
          have := hv.depth
          simp only [Members.depth]
          omega
        obtain ⟨members', s, g₅, g₆, hprint, hoks, hall₅, hd₅, hg₅, hclose⟩ :=
          ih (hvkeeps.overflow_eq.trans (hkkeeps.overflow_eq.trans ho)) hl' (hnode'.trans hlevel) hopen' hrest'
            hall' hd' hg'
        refine ⟨members', 0x2C :: (Str.print key ++ 0x3A :: v.print) ++ s, g₅, g₆, ?_, ?_, hall₅, hd₅, hg₅, hclose⟩
        · rw [hprint]
          simp [Members.print, Gap.empty]
        · intro b hb
          simp only [List.mem_append, List.mem_cons] at hb
          rcases hb with (rfl | hb | rfl | hb) | hb
          · exact hok _ rfl
          · exact hokkey b hb
          · exact hok _ rfl
          · exact hv.ok_bytes b hb
          · exact hoks b hb
      · refine ih ho hl hlevel hopen (fun j hj => ?_) hall hd hg
        rcases hrest j hj with h | h
        · exact .inl h
        · rcases List.mem_cons.1 h with rfl | h
          · refine .inl ?_
            by_contra hno
            exact hmissing ⟨hj, by simpa using hno⟩
          · exact .inr h

/-- An object that has been started with some members can be finished. -/
theorem object_from_members (hwf : arena.Wf) (hok : ∀ b, isSpace b = false → ok b) {k : Nat}
    {g g₁ g₂ : GuideState} {members : Members} (hk : k < maxDepth)
    (hsup : g₂.overflow = 0 → SuppliesAt arena ok g₂.levels.length)
    (he : g.enter arena arena.root 0x7B = some g₁) (hopen : Opened arena ok 0x7B (k + 1) g₂)
    (hall : members.All readable) (hd : members.depth + (k + 1) ≤ maxDepth)
    (hg : membersGuide arena arena.root members g₁ = some g₂) :
    ∃ members' s g', members'.print = members.print ++ s ∧ (∀ b ∈ s, ok b) ∧ members'.All readable ∧
      members'.depth + (k + 1) ≤ maxDepth ∧
      valueGuide arena arena.root (.obj members') g = some g' := by
  have hsame : (g₂.overflow = 0 → ∃ level rest, g₂.levels = level :: rest ∧
      ∀ props required additional, arena.node level.node ≠ .object props required additional) →
      ∃ members' s g', members'.print = members.print ++ s ∧ (∀ b ∈ s, ok b) ∧ members'.All readable ∧
        members'.depth + (k + 1) ≤ maxDepth ∧
        valueGuide arena arena.root (.obj members') g = some g' := by
    intro hno
    obtain ⟨g', hclose⟩ := closes_of_not_object hno
    refine ⟨members, [], g', by simp, by simp, hall, hd, ?_⟩
    rw [valueGuide, he, Option.bind_some, hg, Option.bind_some, hclose]
  by_cases ho : g₂.overflow = 0
  · obtain ⟨level, rest, hl, hlive⟩ := hopen.level ho
    cases hnode : arena.node level.node with
    | object props required additional =>
        simp only [LevelLive, hnode] at hlive
        obtain ⟨-, hneed, -⟩ := hlive
        have hlen : g₂.levels.length = rest.length + 1 := by rw [hl]; rfl
        have hreq := hwf.node_wf level.node
        rw [hnode] at hreq
        obtain ⟨members', s, g₃, g₄, hprint, hoks, hall', hd', hg', hclose⟩ :=
          supply_members hwf hok hnode hk (hlen ▸ hsup ho) (fun i p hp hbit => hneed i p hp (.inl hbit))
            (List.range props.length) ho hl rfl hopen
            (fun i hbit => .inr (List.mem_range.2 (hreq.2.2.2 i hbit))) hall hd hg
        refine ⟨members', s, g₄, hprint, hoks, hall', hd', ?_⟩
        rw [valueGuide, he, Option.bind_some, hg', Option.bind_some, hclose]
    | _ => exact hsame fun _ => ⟨level, rest, hl, fun props required additional h => by rw [hnode] at h; cases h⟩
  · exact hsame fun h => absurd h ho

/-- An object just opened can be finished. -/
theorem object_from_gap (hwf : arena.Wf) (hok : ∀ b, isSpace b = false → ok b) {k : Nat}
    {g g₁ : GuideState} (hk : k < maxDepth)
    (hsup : g₁.overflow = 0 → SuppliesAt arena ok g₁.levels.length)
    (he : g.enter arena arena.root 0x7B = some g₁) (hopen : Opened arena ok 0x7B (k + 1) g₁) (gap : Gap)
    (hgap : readable.gap false gap) :
    ∃ v s g', v.isObject ∧ v.print = 0x7B :: (gap.bytes ++ s) ∧ (∀ b ∈ s, ok b) ∧ v.All readable ∧
      v.depth + k ≤ maxDepth ∧ valueGuide arena arena.root v g = some g' := by
  cases hclose : g₁.closeContainer arena with
  | some g' =>
      refine ⟨.emptyObj gap, [0x7D], g', rfl, rfl, ?_, hgap, by simp only [Value.depth]; omega, ?_⟩
      · intro b hb
        rw [List.mem_singleton.1 hb]
        exact hok _ rfl
      · rw [valueGuide, he, Option.bind_some, hclose]
  | none =>
      -- only a guided object with a required property missing refuses to close
      have hguided : ∃ level rest props required additional, g₁.overflow = 0 ∧ g₁.levels = level :: rest ∧
          arena.node level.node = .object props required additional ∧
          ¬ level.emitted &&& required = required := by
        unfold closeContainer at hclose
        split at hclose
        · cases hclose
        next ho =>
          split at hclose
          · cases hclose
          next level rest hl =>
            refine ⟨level, rest, ?_⟩
            cases hnode : arena.node level.node with
            | object props required additional =>
                refine ⟨props, required, additional, by omega, hl, rfl, fun hdone => ?_⟩
                simp [hnode, hdone] at hclose
            | _ => simp [hnode] at hclose
      obtain ⟨level, rest, props, required, additional, ho, hl, hnode, hmissing⟩ := hguided
      obtain ⟨level', rest', hl', hlive⟩ := hopen.level ho
      rw [hl] at hl'
      cases hl'
      simp only [LevelLive, hnode] at hlive
      obtain ⟨-, hneed, -⟩ := hlive
      have hreq := hwf.node_wf level.node
      rw [hnode] at hreq
      obtain ⟨i, hbit, hunset⟩ : ∃ i, required.getLsbD i = true ∧ level.emitted.getLsbD i = false := by
        by_contra hno
        push Not at hno
        refine hmissing (Mask.and_eq_right_iff.2 fun i _ hbit => ?_)
        simpa using hno i hbit
      obtain ⟨p, hp⟩ : ∃ p, props[i]? = some p := ⟨_, List.getElem?_eq_getElem (hreq.2.2.2 i hbit)⟩
      obtain ⟨htyp, hokp⟩ := hneed i p hp (.inl hbit)
      obtain ⟨key, v, g₂, g₃, hread, hkey, hv, hokkey, -⟩ :=
        supply_member hwf hok (hsup ho) ho hl hnode hopen hk hp hunset htyp hokp
      have hkkeeps := keyGuide_keeps hkey
      have hvkeeps := valueGuide_keeps v (by
        rw [hkkeeps.overflow_eq, ho]
        have := hv.depth
        simp only [maxDepth] at this
        omega) hv.takes
      have hkeeps := hkkeeps.trans hvkeeps.keeps
      have hopen' := hopen.keeps hkeeps (valueGuide_val hwf v hv.takes)
      have hlen : g₃.levels.length = g₁.levels.length := by
        obtain ⟨-, f, -, hl'⟩ := hkeeps
        rw [hl', mapTop_length]
      have hone : membersGuide arena arena.root (.one gap key .empty .empty v .empty) g₁ = some g₃ := by
        rw [membersGuide, hkey, Option.bind_some, hv.takes]
      have hallone : Members.All readable (.one gap key .empty .empty v .empty) :=
        ⟨hgap, hread, gap_empty _, gap_empty _, hv.all, gap_empty _⟩
      obtain ⟨members, s, g', hprint, hoks, hall, hd, htakes⟩ :=
        object_from_members hwf hok hk (fun _ => by rw [hlen]; exact hsup ho) he hopen' hallone hv.depth hone
      refine ⟨.obj members, Str.print key ++ 0x3A :: v.print ++ s ++ [0x7D], g', rfl, ?_, ?_, hall,
        by simp only [Value.depth]; omega, htakes⟩
      · rw [Value.print, hprint]
        simp [Members.print, Gap.empty]
      · intro b hb
        simp only [List.mem_append, List.mem_cons, List.not_mem_nil, or_false] at hb
        rcases hb with ((hb | rfl | hb) | hb) | rfl
        · exact hokkey b hb
        · exact hok _ rfl
        · exact hv.ok_bytes b hb
        · exact hoks b hb
        · exact hok _ rfl

/-- An object wherever an object may stand. -/
theorem supply_object (hwf : arena.Wf) (hok : ∀ b, isSpace b = false → ok b) {k : Nat} {g : GuideState}
    (hroom : Room arena ok k g) (hk : k < maxDepth)
    (hnode : arena.node (g.expected arena arena.root) = .any ∨ ∃ props required additional,
      arena.node (g.expected arena arena.root) = .object props required additional)
    (hsup : ∀ len, g.levels.length < len → len ≤ guidedDepth → SuppliesAt arena ok len) :
    ∃ v g', v.isObject ∧ Supplied arena ok k g v g' := by
  have hstart : startScalar arena (g.expected arena arena.root) 0x7B = some .free := by
    rcases hnode with hnode | ⟨props, required, additional, hnode⟩ <;> simp [startScalar, hnode]
  obtain ⟨g₁, he, -⟩ := enter_of_start hstart
  have hopen := hroom.enter hwf (.inl rfl) hk he
  have hsup₁ : g₁.overflow = 0 → SuppliesAt arena ok g₁.levels.length := by
    intro ho
    refine hsup _ ?_ hopen.guided
    have h₁ := hopen.count
    have h₂ := hroom.count
    omega
  obtain ⟨v, s, g', hobj, hprint, hoks, hall, hd, htakes⟩ :=
    object_from_gap hwf hok hk hsup₁ he hopen .empty (gap_empty false)
  refine ⟨v, g', hobj, hall, hd, ?_, htakes⟩
  intro b hb
  rw [hprint] at hb
  rcases List.mem_cons.1 hb with rfl | hb
  · exact hok _ rfl
  · exact hoks b (by simpa [Gap.empty] using hb)

/-- Values for the levels below are enough for a value at this one: one case for each node. -/
theorem supply_step (hwf : arena.Wf) (hok : ∀ b, isSpace b = false → ok b) {k : Nat} {g : GuideState}
    (hroom : Room arena ok k g) (hk : k ≤ maxDepth) (ho : g.overflow = 0)
    (hsup : ∀ len, g.levels.length < len → len ≤ guidedDepth → SuppliesAt arena ok len) :
    ∃ v g', Supplied arena ok k g v g' := by
  have hcount := hroom.count
  have hguided := hroom.guided
  have hk' : k < maxDepth := by
    have : guidedDepth < maxDepth := by decide
    omega
  cases hnode : arena.node (g.expected arena arena.root) with
  | any => exact supply_any hok hk hnode
  | object props required additional =>
      obtain ⟨v, g', -, hv⟩ := supply_object hwf hok hroom hk' (.inr ⟨_, _, _, hnode⟩) hsup
      exact ⟨v, g', hv⟩
  | array items =>
      have hstart : startScalar arena (g.expected arena arena.root) 0x5B = some .free := by
        simp [startScalar, hnode]
      obtain ⟨g₁, he, -⟩ := enter_of_start hstart
      obtain ⟨g', hclose⟩ := (hroom.enter hwf (.inr rfl) hk' he).closes_array
      refine ⟨.emptyArr .empty, g', rfl, by simp only [Value.depth]; omega, ?_, ?_⟩
      · intro b hb
        simp only [Value.print, Gap.empty, List.nil_append, List.mem_cons, List.not_mem_nil, or_false] at hb
        rcases hb with rfl | rfl <;> exact hok _ rfl
      · rw [valueGuide, he, Option.bind_some, hclose]
  | str =>
      have hstart : startScalar arena (g.expected arena arena.root) 0x22 = some .free := by
        simp [startScalar, hnode]
      obtain ⟨g₁, he, hval⟩ := enter_of_start hstart
      obtain ⟨g', htakes⟩ := closed_of_free (c := 0x22) (w := []) he hval
      refine ⟨.str [], g', trivial, by simpa [Value.depth] using hk, ?_, htakes⟩
      intro b hb
      simp only [Value.print, Str.print, body_nil, List.nil_append, List.mem_cons, List.not_mem_nil, or_false] at hb
      rcases hb with rfl | rfl <;> exact hok _ rfl
  | number integer =>
      have hstart : startScalar arena (g.expected arena arena.root) 0x30 =
          some (if integer then .intNumber else .free) := by simp [startScalar, hnode]
      obtain ⟨g₁, he, hval⟩ := enter_of_start hstart
      have hnum : g.numberGuide arena arena.root (Number.print ⟨false, .zero, none, none⟩) = some g₁ := by
        show (g.enter arena arena.root 0x30).bind (fun g => g.reads arena []) = some g₁
        rw [he]
        rfl
      obtain ⟨g', htakes⟩ := number_settles hnum (by rw [hval]; cases integer <;> simp)
      refine ⟨.num ⟨false, .zero, none, none⟩, g', trivial, by simpa [Value.depth] using hk, ?_, htakes⟩
      intro b hb
      have hb' : b ∈ [(0x30 : UInt8)] := hb
      rw [List.mem_singleton.1 hb']
      exact hok _ rfl
  | boolean =>
      have hstart : startScalar arena (g.expected arena arena.root) 0x74 = some .free := by
        simp [startScalar, hnode]
      obtain ⟨g₁, he, hval⟩ := enter_of_start hstart
      obtain ⟨g', htakes⟩ := closed_of_free (c := 0x65) (w := [0x72, 0x75]) he hval
      refine ⟨.lit .true, g', trivial, by simpa [Value.depth] using hk, ?_, htakes⟩
      intro b hb
      simp only [Value.print, Literal.print, List.mem_cons, List.not_mem_nil, or_false] at hb
      rcases hb with rfl | rfl | rfl | rfl <;> exact hok _ rfl
  | null =>
      have hstart : startScalar arena (g.expected arena arena.root) 0x6E = some .free := by
        simp [startScalar, hnode]
      obtain ⟨g₁, he, hval⟩ := enter_of_start hstart
      obtain ⟨g', htakes⟩ := closed_of_free (c := 0x6C) (w := [0x75, 0x6C]) he hval
      refine ⟨.lit .null, g', trivial, by simpa [Value.depth] using hk, ?_, htakes⟩
      intro b hb
      simp only [Value.print, Literal.print, List.mem_cons, List.not_mem_nil, or_false] at hb
      rcases hb with rfl | rfl | rfl | rfl <;> exact hok _ rfl
  | enum literals =>
      have hlits := hwf.node_wf (g.expected arena arena.root)
      rw [hnode] at hlits
      obtain ⟨hne, -, hscalar⟩ := hlits
      obtain ⟨l, hl⟩ := List.exists_mem_of_ne_nil _ hne
      obtain ⟨v, hv, rfl, -⟩ := hscalar l hl
      have hlive : ∀ l ∈ literals, Matchable l ∧ ∀ b ∈ l, ok b := by
        have := hroom.live ho
        cases hn : guidedDepth - g.levels.length <;> rw [hn] at this <;> simpa [Live, hnode] using this
      obtain ⟨hall, g', htakes⟩ := literal_takes hwf hnode hv hl (hlive _ hl).1
      exact ⟨v, g', hall, by rw [scalar_depth hv]; omega, (hlive _ hl).2, htakes⟩

theorem suppliesAt_of_le (hwf : arena.Wf) (hok : ∀ b, isSpace b = false → ok b) (n : Nat) :
    ∀ len, guidedDepth ≤ len + n → SuppliesAt arena ok len := by
  -- on the depth guidance still reaches
  induction n with
  | zero =>
      rintro len hlen k g hroom hk ho rfl
      exact supply_step hwf hok hroom hk ho fun len hlt hle => by omega
  | succ n ih =>
      rintro len hlen k g hroom hk ho rfl
      exact supply_step hwf hok hroom hk ho fun len hlt hle => ih len (by omega)

theorem suppliesAt (hwf : arena.Wf) (hok : ∀ b, isSpace b = false → ok b) (len : Nat) :
    SuppliesAt arena ok len :=
  suppliesAt_of_le hwf hok guidedDepth len (by omega)

/-- Wherever a value may start there is one. -/
theorem exists_value (hwf : arena.Wf) (hok : ∀ b, isSpace b = false → ok b) {k : Nat} {g : GuideState}
    (hroom : Room arena ok k g) (hk : k ≤ maxDepth) : ∃ v g', Supplied arena ok k g v g' := by
  by_cases ho : g.overflow = 0
  · exact suppliesAt hwf hok _ k g hroom hk ho rfl
  · have hexp : g.expected arena arena.root = anyId := by simp [expected, Nat.pos_of_ne_zero ho]
    exact supply_any hok hk (by rw [hexp]; exact hwf.node_any)

end

end Oxydllm.Constrain
