/-
# Oxydllm.Constrain.Satisfy — what schema guidance guarantees of the emitted document.

`Satisfies` says what a compiled node means for a value, whatever spelled it. The walker compares
keys byte for byte with the declared names while the document is read with escapes resolved and the
last of two equal keys winning; `Value.plain` is where the two readings of keys agree, and there every
document that a run may end on satisfies the root node.
-/
import Oxydllm.Constrain.Frame

namespace Oxydllm.Constrain

open JsonText

/-! ## The meaning of a node -/

/-- The value satisfies the node; `inRange` are the numbers the reader can represent. -/
inductive Satisfies (arena : SchemaArena) (inRange : Number → Bool) : NodeId → Json → Prop where
  | any {id j} (h : arena.node id = .any) : Satisfies arena inRange id j
  | str {id s} (h : arena.node id = .str) : Satisfies arena inRange id (.str s)
  | number {id n integer} (h : arena.node id = .number integer)
      (hint : integer = true → ∃ z : ℤ, n.value = (z : ℚ)) : Satisfies arena inRange id (.num n)
  | boolean {id b} (h : arena.node id = .boolean) : Satisfies arena inRange id (.bool b)
  | null {id} (h : arena.node id = .null) : Satisfies arena inRange id .null
  | enum {id literals j} (h : arena.node id = .enum literals) {v : Value}
      (hmem : v.print ∈ literals) (hv : v.decode inRange = some j) : Satisfies arena inRange id j
  | array {id items xs} (h : arena.node id = .array items)
      (hitems : ∀ x ∈ xs, Satisfies arena inRange items x) : Satisfies arena inRange id (.arr xs)
  | object {id props required additional ms}
      (h : arena.node id = .object props required additional)
      (hrequired : ∀ i p, props[i]? = some p → required.getLsbD i = true → (Json.get? ms p.1).isSome)
      (hprops : ∀ p ∈ props, ∀ j, Json.get? ms p.1 = some j → Satisfies arena inRange p.2 j)
      (hknown : additional = false → ∀ m ∈ ms, ∃ p ∈ props, p.1 = m.1) :
      Satisfies arena inRange id (.obj ms)

/-- A scalar spelled as the node asks. -/
def Fits : SchemaNode → Value → Prop
  | .any, _ => True
  | .str, v => ∃ s, v = .str s
  | .number integer, v => ∃ n, v = .num n ∧ (integer = true → n.isIntegral)
  | .boolean, v => v = .lit .true ∨ v = .lit .false
  | .null, v => v = .lit .null
  | .enum literals, v => v.print ∈ literals
  | _, _ => False

theorem Fits.satisfies {arena : SchemaArena} {inRange : Number → Bool} {id : NodeId} {v : Value}
    {j : Json} (h : Fits (arena.node id) v) (hj : v.decode inRange = some j) :
    Satisfies arena inRange id j := by
  cases hnode : arena.node id with
  | any => exact .any hnode
  | str =>
      rw [hnode] at h
      obtain ⟨s, rfl⟩ := h
      obtain ⟨w, -, rfl⟩ := Option.map_eq_some_iff.1 hj
      exact .str hnode
  | number integer =>
      rw [hnode] at h
      obtain ⟨n, rfl, hint⟩ := h
      rw [Value.decode, Option.ite_none_right_eq_some] at hj
      cases hj.2
      exact .number hnode fun hi => Number.value_isInt (hint hi)
  | boolean =>
      rw [hnode] at h
      rcases h with rfl | rfl <;> cases hj <;> exact .boolean hnode
  | null =>
      rw [hnode] at h
      cases h
      cases hj
      exact .null hnode
  | enum literals =>
      rw [hnode] at h
      exact .enum hnode h hj
  | _ =>
      rw [hnode] at h
      exact h.elim

/-- The containers under the node nest at most `n` deep. -/
def Nests (arena : SchemaArena) : Nat → NodeId → Prop
  | 0, id =>
      match arena.node id with
      | .object _ _ _ => False
      | .array _ => False
      | _ => True
  | n + 1, id =>
      match arena.node id with
      | .object props _ _ => ∀ p ∈ props, Nests arena n p.2
      | .array items => Nests arena n items
      | _ => True

/-! ## Keys whose spelling is their meaning -/

/-- The key spells a declared name exactly when it denotes it, and the walker's position does not wrap
inside it. -/
def KeyPlain (props : List (List UInt8 × NodeId)) (key : Str) : Prop :=
  ∀ p ∈ props, (Str.body key = p.1 ↔ Str.decode key = some p.1) ∧ (Str.body key = p.1 → p.1.length < 65536)

/-- The node that governs the value under a key. -/
def propNode (props : List (List UInt8 × NodeId)) (w : List UInt8) : NodeId :=
  ((props.find? (·.1 == w)).map Prod.snd).getD anyId

mutual

/-- In the guided objects of a value every key is plain and no declared key comes twice. -/
def valuePlain (arena : SchemaArena) : Value → NodeId → Prop
  | .arr items, id =>
      match arena.node id with
      | .array node => itemsPlain arena items node
      | _ => True
  | .obj members, id =>
      match arena.node id with
      | .object props _ _ => membersPlain arena members props
      | _ => True
  | _, _ => True

def itemsPlain (arena : SchemaArena) : Items → NodeId → Prop
  | .one _ v _, id => valuePlain arena v id
  | .snoc init _ v _, id => itemsPlain arena init id ∧ valuePlain arena v id

def membersPlain (arena : SchemaArena) : Members → List (List UInt8 × NodeId) → Prop
  | .one _ key _ _ v _, props =>
      KeyPlain props key ∧ valuePlain arena v (propNode props (Str.body key))
  | .snoc init _ key _ _ v _, props =>
      membersPlain arena init props ∧ KeyPlain props key ∧
        (∀ p ∈ props, Str.body key = p.1 → Str.body key ∉ init.keys.map Str.body) ∧
        valuePlain arena v (propNode props (Str.body key))

end

theorem propNode_of_getElem {props : List (List UInt8 × NodeId)} (hkeys : (props.map Prod.fst).Nodup)
    {i : Nat} {w : List UInt8} {id : NodeId} (h : props[i]? = some (w, id)) : propNode props w = id := by
  have hmem : (w, id) ∈ props := List.mem_of_getElem? h
  unfold propNode
  cases hfind : props.find? (·.1 == w) with
  | none => exact absurd (List.find?_eq_none.1 hfind _ hmem) (by simp)
  | some q =>
      have hq : q.1 = w := by simpa using List.find?_some hfind
      have := List.inj_on_of_nodup_map hkeys (List.mem_of_find?_eq_some hfind) hmem hq
      simp [this]

theorem propNode_of_forall_ne {props : List (List UInt8 × NodeId)} {w : List UInt8}
    (h : ∀ p ∈ props, w ≠ p.1) : propNode props w = anyId := by
  have hfind : props.find? (·.1 == w) = none := by
    rw [List.find?_eq_none]
    intro p hp
    simpa using fun heq => h p hp heq.symm
  simp [propNode, hfind]

namespace GuideState

variable {arena : SchemaArena} {root : NodeId} {inRange : Number → Bool}

/-! ## Scalars -/

theorem isIntegral_of_print {n : Number} (h : ∀ b ∈ n.print, b ≠ 0x2E ∧ b ≠ 0x65 ∧ b ≠ 0x45) :
    n.isIntegral := by
  obtain ⟨neg, int, frac, exp⟩ := n
  cases frac with
  | some d => exact absurd rfl (h 0x2E (by simp [Number.print, Number.printFrac])).1
  | none =>
      cases exp with
      | none => rfl
      | some e =>
          have hb := h e.marker (by simp [Number.print, Number.printExp, Exponent.print])
          rcases e.marker_ok with hm | hm
          · exact absurd hm hb.2.1
          · exact absurd hm hb.2.2

/-- Under an integer node no byte of a number is a point or an exponent mark. -/
theorem numberGuide_integer {g g' : GuideState} {n : Number}
    (hnode : arena.node (g.expected arena root) = .number true)
    (h : g.numberGuide arena root n.print = some g') : n.isIntegral := by
  obtain ⟨b, w, s, hprint, hs, -⟩ := run_number n
  rw [hprint] at h
  obtain ⟨g₁, he, hr⟩ := Option.bind_eq_some_iff.1 h
  have hval := enterValue_val he
  rw [startScalar, hnode] at hval
  obtain ⟨hb, hval⟩ := Option.ite_none_right_eq_some.1 hval
  rw [reads_intNumber (Option.some.inj hval).symm] at hr
  obtain ⟨hfree, -⟩ := Option.ite_none_left_eq_some.1 hr
  refine isIntegral_of_print fun c hc => ?_
  rw [hprint] at hc
  rcases List.mem_cons.1 hc with rfl | hc
  · refine ⟨?_, ?_, ?_⟩ <;> rintro rfl <;> exact absurd hb (by decide)
  · by_contra hno
    exact hfree ⟨c, hc, by tauto⟩

theorem lit_fits (l : Literal) {g g' : GuideState} (h : valueGuide arena root (.lit l) g = some g') :
    Fits (arena.node (g.expected arena root)) (.lit l) := by
  rw [valueGuide] at h
  have hclosed := h
  cases hnode : arena.node (g.expected arena root) with
  | any => trivial
  | enum literals =>
      cases l with
      | true => exact closed_enum_mem (w := [0x72, 0x75]) (by decide) hnode (by grind) h
      | false => exact closed_enum_mem (w := [0x61, 0x6C, 0x73]) (by decide) hnode (by grind) h
      | null => exact closed_enum_mem (w := [0x75, 0x6C]) (by decide) hnode (by grind) h
  | _ =>
      cases l <;>
        obtain ⟨g₁, he, -⟩ := Option.bind_eq_some_iff.1 hclosed <;>
        have hval := enterValue_val he <;>
        simp [startScalar, hnode] at hval
      all_goals simp [Fits]

theorem str_fits (s : Str) {g g' : GuideState} (h : valueGuide arena root (.str s) g = some g') :
    Fits (arena.node (g.expected arena root)) (.str s) := by
  rw [valueGuide] at h
  have hclosed := h
  cases hnode : arena.node (g.expected arena root) with
  | any => trivial
  | str => exact ⟨s, rfl⟩
  | enum literals => exact closed_enum_mem (by decide) hnode (body_no_quotes s).2 h
  | _ =>
      obtain ⟨g₁, he, -⟩ := Option.bind_eq_some_iff.1 hclosed
      have hval := enterValue_val he
      simp [startScalar, hnode] at hval

/-- A number the guide has let through, ended or not: under an enum it need not be a literal yet. -/
theorem number_fits (n : Number) {g g' : GuideState} (h : g.numberGuide arena root n.print = some g') :
    Fits (arena.node (g.expected arena root)) (.num n) ∨
      ∃ literals, arena.node (g.expected arena root) = .enum literals := by
  obtain ⟨b, w, hprint, hb⟩ := number_head n
  have hnum := h
  rw [hprint] at hnum
  obtain ⟨g₁, he, -⟩ := Option.bind_eq_some_iff.1 hnum
  have hval := enterValue_val he
  cases hnode : arena.node (g.expected arena root) with
  | any => exact .inl trivial
  | number integer =>
      refine .inl ⟨n, rfl, fun hint => ?_⟩
      rw [hint] at hnode
      exact numberGuide_integer hnode h
  | enum literals => exact .inr ⟨literals, rfl⟩
  | _ =>
      have hne : b ≠ 0x7B ∧ b ≠ 0x5B ∧ b ≠ 0x22 ∧ b ≠ 0x74 ∧ b ≠ 0x66 ∧ b ≠ 0x6E := by grind
      simp [startScalar, hnode, hne] at hval

theorem num_fits (n : Number) {g g' : GuideState} (h : valueGuide arena root (.num n) g = some g') :
    Fits (arena.node (g.expected arena root)) (.num n) := by
  rw [valueGuide] at h
  obtain ⟨g₁, hg₁, -⟩ := Option.bind_eq_some_iff.1 h
  rcases number_fits n hg₁ with hfits | ⟨literals, hnode⟩
  · exact hfits
  · obtain ⟨b, w, hprint, hb⟩ := scalar_head (v := .num n) rfl
    rw [hnode, Fits, hprint]
    rw [show n.print = b :: w from hprint] at h
    exact number_enum_mem hb hnode h

/-! ## Members -/

/-- What an object level knows after some members: `bodies` are the keys as spelled, `ms` the members
read. -/
structure MembersRead (arena : SchemaArena) (inRange : Number → Bool)
    (props : List (List UInt8 × NodeId)) (additional : Bool) (bodies : List (List UInt8))
    (emitted : BitVec 64) (ms : List (List UInt8 × Json)) : Prop where
  emitted_mem : ∀ i p, props[i]? = some p → emitted.getLsbD i = true →
    p.1 ∈ bodies ∧ (Json.get? ms p.1).isSome
  props_ok : ∀ p ∈ props, ∀ j, Json.get? ms p.1 = some j → Satisfies arena inRange p.2 j
  known : additional = false → ∀ m ∈ ms, ∃ p ∈ props, p.1 = m.1

theorem membersRead_nil (props : List (List UInt8 × NodeId)) (additional : Bool) :
    MembersRead arena inRange props additional [] 0#64 [] :=
  ⟨fun i p _ h => by simp at h, fun p _ j h => by simp [Json.get?] at h, fun _ m hm => by simp at hm⟩

section

variable {g g' : GuideState} {level : Level} {rest : List Level} {props : List (List UInt8 × NodeId)}
  {required : BitVec 64} {additional : Bool} {bodies : List (List UInt8)}
  {ms : List (List UInt8 × Json)} {key : Str} {k : List UInt8}

/-- One more member: the value under a key is governed by the property the key denotes. -/
theorem membersRead_member (hov : g.overflow = 0) (hl : g.levels = level :: rest)
    (hnode : arena.node level.node = .object props required additional) (hsize : props.length ≤ 64)
    (hkeys : (props.map Prod.fst).Nodup)
    (hread : MembersRead arena inRange props additional bodies level.emitted ms)
    (hplain : KeyPlain props key) (honce : ∀ p ∈ props, Str.body key = p.1 → Str.body key ∉ bodies)
    (hk : Str.decode key = some k) (h : g.keyGuide arena key = some g') :
    ∃ level', g'.levels = level' :: rest ∧ g'.overflow = 0 ∧ level'.node = level.node ∧
      g'.expected arena root = propNode props (Str.body key) ∧
      ∀ j, Satisfies arena inRange (propNode props (Str.body key)) j →
        MembersRead arena inRange props additional (bodies ++ [Str.body key]) level'.emitted
          (Json.insert ms k j) := by
  by_cases hname : ∃ i, Names props level.emitted (Str.body key) i
  · obtain ⟨i, hname⟩ := hname
    rw [keyGuide_declared hov hl hnode hsize hkeys hname] at h
    cases h
    obtain ⟨hbit, -, id, hp⟩ := hname
    have hpmem := List.mem_of_getElem? hp
    have hk' : k = Str.body key := by
      have := ((hplain _ hpmem).1).1 rfl
      rw [hk] at this
      exact Option.some.inj this
    have hprop := propNode_of_getElem hkeys hp
    refine ⟨_, rfl, hov, rfl, by simp [expected, hov, hnode, hp, hprop], fun j hj => ⟨?_, ?_, ?_⟩⟩
    · intro i' p' hp' hbit'
      have hi' : i' < 64 := BitVec.lt_of_getLsbD hbit'
      simp only [Mask.getLsbD_insert hi', Bool.or_eq_true, decide_eq_true_eq] at hbit'
      rw [Json.get?_insert]
      rcases hbit' with hbit' | rfl
      · obtain ⟨hmem, hsome⟩ := hread.emitted_mem i' p' hp' hbit'
        refine ⟨List.mem_append_left _ hmem, ?_⟩
        split
        · rfl
        · exact hsome
      · rw [hp] at hp'
        cases hp'
        simp [hk']
    · intro p' hp' j' hj'
      rw [Json.get?_insert] at hj'
      split at hj'
      next heq =>
        cases hj'
        have : p' = (Str.body key, id) := List.inj_on_of_nodup_map hkeys hp' hpmem (by rw [← heq, hk'])
        rw [this]
        rw [hprop] at hj
        exact hj
      · exact hread.props_ok p' hp' j' hj'
    · intro hadd m hm
      rcases Json.mem_insert hm with rfl | hm
      · exact ⟨_, hpmem, hk'.symm⟩
      · exact hread.known hadd m hm
  · push Not at hname
    rw [keyGuide_unknown hov hl hnode hsize hname] at h
    obtain ⟨hadd, h⟩ := Option.ite_none_right_eq_some.1 h
    cases h
    have hnot : ∀ p ∈ props, Str.body key ≠ p.1 := by
      intro p hp heq
      obtain ⟨i, hi⟩ := List.mem_iff_getElem?.1 hp
      refine hname i ⟨?_, ?_, p.2, by rw [hi, heq]⟩
      · by_contra hbit
        rw [Bool.not_eq_false] at hbit
        exact honce p hp heq (heq ▸ (hread.emitted_mem i p hi hbit).1)
      · rw [heq]
        exact (hplain p hp).2 heq
    have hk' : ∀ p ∈ props, k ≠ p.1 := by
      rintro p hp rfl
      exact hnot p hp ((hplain p hp).1.2 hk)
    have hprop := propNode_of_forall_ne hnot
    refine ⟨_, rfl, hov, rfl, by simp [expected, hov, hnode, hprop], fun j _ => ⟨?_, ?_, ?_⟩⟩
    · intro i' p' hp' hbit'
      obtain ⟨hmem, hsome⟩ := hread.emitted_mem i' p' hp' hbit'
      rw [Json.get?_insert, if_neg (hk' p' (List.mem_of_getElem? hp'))]
      exact ⟨List.mem_append_left _ hmem, hsome⟩
    · intro p' hp' j' hj'
      rw [Json.get?_insert, if_neg (hk' p' hp')] at hj'
      exact hread.props_ok p' hp' j' hj'
    · intro hadd'
      rw [hadd] at hadd'
      cases hadd'

end

/-! ## Values -/

theorem nests_propNode (hwf : arena.Wf) {n : Nat} {props : List (List UInt8 × NodeId)}
    (h : ∀ p ∈ props, Nests arena n p.2) (w : List UInt8) : Nests arena n (propNode props w) := by
  unfold propNode
  cases hfind : props.find? (·.1 == w) with
  | none => cases n <;> simp [Nests, hwf.node_any]
  | some p => exact h p (List.mem_of_find?_eq_some hfind)

/-- Below the guided depth a container node opens a level of its own. -/
theorem enter_guided {g g' : GuideState} {b : UInt8} {n : Nat} (hb : b = 0x7B ∨ b = 0x5B)
    (hov : g.overflow = 0) (hn : guidedDepth - g.levels.length = n + 1)
    (h : g.enter arena root b = some g') :
    g'.overflow = 0 ∧ g'.levels = ⟨levelNode arena (g.expected arena root), 0#64, none⟩ :: g.levels := by
  rcases enter_container hb (by omega) h with ⟨-, -, ho, hl⟩ | ⟨hdeep, -⟩
  · exact ⟨ho, hl⟩
  · omega

theorem object_satisfies {id : NodeId} {props : List (List UInt8 × NodeId)}
    {required emitted : BitVec 64} {additional : Bool} {bodies : List (List UInt8)}
    {ms : List (List UInt8 × Json)} (hnode : arena.node id = .object props required additional)
    (hread : MembersRead arena inRange props additional bodies emitted ms)
    (hrequired : emitted &&& required = required) : Satisfies arena inRange id (.obj ms) := by
  refine .object hnode (fun i p hp hbit => ?_) hread.props_ok hread.known
  have hset := Mask.and_eq_right_iff.1 hrequired i (BitVec.lt_of_getLsbD hbit) hbit
  exact (hread.emitted_mem i p hp hset).2

/-- Within the guided depth, a value the guide reads satisfies the node that governs it. -/
def ValueSound (arena : SchemaArena) (root : NodeId) (inRange : Number → Bool) (v : Value) : Prop :=
  ∀ {g g' : GuideState} {n : Nat}, g.overflow = 0 → guidedDepth - g.levels.length = n →
    Nests arena n (g.expected arena root) → v.depth ≤ 255 → v.All (legible inRange) →
    valuePlain arena v (g.expected arena root) → valueGuide arena root v g = some g' →
    ∃ j, v.decode inRange = some j ∧ Satisfies arena inRange (g.expected arena root) j

/-- A key and its value. -/
theorem member_satisfies (hwf : arena.Wf) {v : Value} (hv : ValueSound arena root inRange v)
    {g g' : GuideState} {n : Nat} {level : Level} {rest : List Level}
    {props : List (List UInt8 × NodeId)} {required : BitVec 64} {additional : Bool}
    {bodies : List (List UInt8)} {ms : List (List UInt8 × Json)} {key : Str} (hov : g.overflow = 0)
    (hl : g.levels = level :: rest) (hn : guidedDepth - g.levels.length = n)
    (hnode : arena.node level.node = .object props required additional)
    (hnest : ∀ p ∈ props, Nests arena n p.2) (hdepth : v.depth ≤ 255)
    (hkey : (Str.decode key).isSome) (hlegible : v.All (legible inRange))
    (hplain : KeyPlain props key) (honce : ∀ p ∈ props, Str.body key = p.1 → Str.body key ∉ bodies)
    (hplainv : valuePlain arena v (propNode props (Str.body key)))
    (hread : MembersRead arena inRange props additional bodies level.emitted ms)
    (h : ((g.keyGuide arena key).bind fun g => valueGuide arena root v g) = some g') :
    ∃ k j level', Str.decode key = some k ∧ v.decode inRange = some j ∧
      g'.levels = level' :: rest ∧ g'.overflow = 0 ∧ level'.node = level.node ∧
      MembersRead arena inRange props additional (bodies ++ [Str.body key]) level'.emitted
        (Json.insert ms k j) := by
  have hobj := hwf.node_wf level.node
  rw [hnode] at hobj
  obtain ⟨hsize, hkeys, -, -⟩ := hobj
  obtain ⟨k, hk⟩ := Option.isSome_iff_exists.1 hkey
  obtain ⟨g₁, hk₁, hv₁⟩ := Option.bind_eq_some_iff.1 h
  obtain ⟨level₁, hl₁, ho₁, hnode₁, (hexp : g₁.expected arena root = _), hnext⟩ :=
    membersRead_member hov hl hnode hsize hkeys hread hplain honce hk hk₁
  have hn₁ : guidedDepth - g₁.levels.length = n := by
    rw [← hn, hl₁, hl]
    rfl
  obtain ⟨j, hj, hsat⟩ := hv ho₁ hn₁ (hexp ▸ nests_propNode hwf hnest _) hdepth hlegible
    (hexp ▸ hplainv) hv₁
  rw [hexp] at hsat
  have hkeeps := valueGuide_keeps v (by omega) hv₁
  obtain ⟨level', hl', hnode', hemitted⟩ := hkeeps.level hl₁
  exact ⟨k, j, level', hk, hj, hl', hkeeps.overflow_eq.trans ho₁, hnode'.trans hnode₁,
    hemitted ▸ hnext j hsat⟩

mutual

theorem value_satisfies (hwf : arena.Wf) : ∀ v : Value, ValueSound arena root inRange v
  | .lit l, g, g', n, _, _, _, _, hlegible, _, h => by
      obtain ⟨j, hj⟩ := Value.decode_of_legible (.lit l) hlegible
      exact ⟨j, hj, (lit_fits l h).satisfies hj⟩
  | .num m, g, g', n, _, _, _, _, hlegible, _, h => by
      obtain ⟨j, hj⟩ := Value.decode_of_legible (.num m) hlegible
      exact ⟨j, hj, (num_fits m h).satisfies hj⟩
  | .str s, g, g', n, _, _, _, _, hlegible, _, h => by
      obtain ⟨j, hj⟩ := Value.decode_of_legible (.str s) hlegible
      exact ⟨j, hj, (str_fits s h).satisfies hj⟩
  | .emptyArr gap, g, g', n, hov, hn, hnest, _, _, _, h => by
      obtain ⟨g₁, he, -⟩ := Option.bind_eq_some_iff.1 h
      refine ⟨.arr [], rfl, ?_⟩
      obtain ⟨-, hnode | ⟨hb, -⟩ | ⟨-, items, hnode⟩⟩ := startScalar_open hwf (.inr rfl) (enterValue_val he)
      · exact .any hnode
      · cases hb
      · exact .array hnode (by simp)
  | .emptyObj gap, g, g', n, hov, hn, hnest, _, _, _, h => by
      obtain ⟨g₁, he, hc⟩ := Option.bind_eq_some_iff.1 h
      refine ⟨.obj [], rfl, ?_⟩
      obtain ⟨-, hnode | ⟨-, props, required, additional, hnode⟩ | ⟨hb, -⟩⟩ :=
        startScalar_open hwf (.inl rfl) (enterValue_val he)
      · exact .any hnode
      · cases n with
        | zero => simp [Nests, hnode] at hnest
        | succ n =>
            obtain ⟨ho, hl⟩ := enter_guided (.inl rfl) hov hn he
            have hlevel : levelNode arena (g.expected arena root) = g.expected arena root := by
              simp [levelNode, hnode]
            rw [hlevel] at hl
            obtain ⟨-, -, hreq⟩ := closeContainer_level ho hl hc
            exact object_satisfies hnode (membersRead_nil _ _) (hreq _ _ _ hnode)
      · cases hb
  | .arr items, g, g', n, hov, hn, hnest, hdepth, hlegible, hplain, h => by
      obtain ⟨g₁, he, h⟩ := Option.bind_eq_some_iff.1 h
      obtain ⟨g₂, hi, -⟩ := Option.bind_eq_some_iff.1 h
      obtain ⟨-, hnode | ⟨hb, -⟩ | ⟨-, node, hnode⟩⟩ := startScalar_open hwf (.inr rfl) (enterValue_val he)
      · obtain ⟨j, hj⟩ := Value.decode_of_legible (.arr items) hlegible
        exact ⟨j, hj, .any hnode⟩
      · cases hb
      · cases n with
        | zero => simp [Nests, hnode] at hnest
        | succ n =>
            obtain ⟨ho, hl⟩ := enter_guided (.inr rfl) hov hn he
            have hlevel : levelNode arena (g.expected arena root) = g.expected arena root := by
              simp [levelNode, hnode]
            rw [hlevel] at hl
            simp only [Nests, hnode] at hnest
            simp only [valuePlain, hnode] at hplain
            obtain ⟨xs, hxs, hsat⟩ := items_satisfy hwf items (n := n) ho hl
              (by rw [hl, List.length_cons]; omega) hnode hnest
              (by simp only [Value.depth] at hdepth; omega) hlegible hplain hi
            exact ⟨.arr xs, by simp [Value.decode, hxs], .array hnode hsat⟩
  | .obj members, g, g', n, hov, hn, hnest, hdepth, hlegible, hplain, h => by
      obtain ⟨g₁, he, h⟩ := Option.bind_eq_some_iff.1 h
      obtain ⟨g₂, hm, hc⟩ := Option.bind_eq_some_iff.1 h
      obtain ⟨-, hnode | ⟨-, props, required, additional, hnode⟩ | ⟨hb, -⟩⟩ :=
        startScalar_open hwf (.inl rfl) (enterValue_val he)
      · obtain ⟨j, hj⟩ := Value.decode_of_legible (.obj members) hlegible
        exact ⟨j, hj, .any hnode⟩
      · cases n with
        | zero => simp [Nests, hnode] at hnest
        | succ n =>
            obtain ⟨ho, hl⟩ := enter_guided (.inl rfl) hov hn he
            have hlevel : levelNode arena (g.expected arena root) = g.expected arena root := by
              simp [levelNode, hnode]
            rw [hlevel] at hl
            simp only [Nests, hnode] at hnest
            simp only [valuePlain, hnode] at hplain
            obtain ⟨ms, level, hms, hl₂, ho₂, hnode₂, hread⟩ := members_satisfy hwf members (n := n) ho hl
              (by rw [hl, List.length_cons]; omega) hnode hnest
              (by simp only [Value.depth] at hdepth; omega) hlegible hplain hm
            obtain ⟨-, -, hreq⟩ := closeContainer_level ho₂ hl₂ hc
            rw [hnode₂] at hreq
            exact ⟨.obj ms, by simp [Value.decode, hms], object_satisfies hnode hread (hreq _ _ _ hnode)⟩
      · cases hb

theorem items_satisfy (hwf : arena.Wf) : ∀ (items : Items) {g g' : GuideState} {n : Nat} {node : NodeId}
    {level : Level} {rest : List Level},
    g.overflow = 0 → g.levels = level :: rest → guidedDepth - g.levels.length = n →
    arena.node level.node = .array node → Nests arena n node → items.depth ≤ 255 →
    items.All (legible inRange) → itemsPlain arena items node → itemsGuide arena root items g = some g' →
    ∃ xs, items.decode inRange = some xs ∧ ∀ x ∈ xs, Satisfies arena inRange node x
  | .one _ v _, g, g', n, node, level, rest, hov, hl, hn, hnode, hnest, hdepth, ⟨_, hlegible, _⟩, hplain, h => by
      have hexp : g.expected arena root = node := expected_array hov hl hnode
      rw [← hexp] at hnest hplain ⊢
      obtain ⟨j, hj, hsat⟩ := value_satisfies hwf v hov hn hnest hdepth hlegible hplain h
      exact ⟨[j], by simp [Items.decode, hj], by simpa using hsat⟩
  | .snoc init _ v _, g, g', n, node, level, rest, hov, hl, hn, hnode, hnest, hdepth,
      ⟨hinit, _, hlegible, _⟩, ⟨hplain, hplainv⟩, h => by
      simp only [Items.depth] at hdepth
      obtain ⟨g₁, hi, h⟩ := Option.bind_eq_some_iff.1 h
      obtain ⟨xs, hxs, hsat⟩ :=
        items_satisfy hwf init hov hl hn hnode hnest (by omega) hinit hplain hi
      have hkeeps := itemsGuide_keeps init (by omega) hi
      obtain ⟨level', hl', hnode', -⟩ := hkeeps.level hl
      have hov' : g₁.overflow = 0 := hkeeps.overflow_eq.trans hov
      have hexp : g₁.expected arena root = node := expected_array hov' hl' (by rw [hnode', hnode])
      have hn' : guidedDepth - g₁.levels.length = n := by
        rw [← hn, hl', hl]
        rfl
      rw [← hexp] at hnest hplainv hsat ⊢
      obtain ⟨j, hj, hsatv⟩ := value_satisfies hwf v hov' hn' hnest (by omega) hlegible hplainv h
      refine ⟨xs ++ [j], by simp [Items.decode, hxs, hj], fun x hx => ?_⟩
      rcases List.mem_append.1 hx with hx | hx
      · exact hsat x hx
      · rw [List.mem_singleton.1 hx]
        exact hsatv

theorem members_satisfy (hwf : arena.Wf) : ∀ (members : Members) {g g' : GuideState} {n : Nat}
    {props : List (List UInt8 × NodeId)} {required : BitVec 64} {additional : Bool}
    {node : NodeId} {rest : List Level},
    g.overflow = 0 → g.levels = ⟨node, 0#64, none⟩ :: rest → guidedDepth - g.levels.length = n →
    arena.node node = .object props required additional → (∀ p ∈ props, Nests arena n p.2) →
    members.depth ≤ 255 → members.All (legible inRange) → membersPlain arena members props →
    membersGuide arena root members g = some g' →
    ∃ ms level, members.decode inRange = some ms ∧ g'.levels = level :: rest ∧ g'.overflow = 0 ∧
      level.node = node ∧
      MembersRead arena inRange props additional (members.keys.map Str.body) level.emitted ms
  | .one _ key _ _ v _, g, g', n, props, required, additional, node, rest, hov, hl, hn, hnode, hnest,
      hdepth, ⟨_, hkey, _, _, hlegible, _⟩, ⟨hplain, hplainv⟩, h => by
      obtain ⟨k, j, level, hk, hj, hl', ho', hnode', hread⟩ :=
        member_satisfies hwf (value_satisfies hwf v) hov hl hn hnode hnest hdepth hkey hlegible hplain
          (fun _ _ _ => by simp) hplainv (membersRead_nil _ _) h
      exact ⟨[(k, j)], level, by simp [Members.decode, hk, hj], hl', ho', hnode', hread⟩
  | .snoc init _ key _ _ v _, g, g', n, props, required, additional, node, rest, hov, hl, hn, hnode, hnest,
      hdepth, ⟨hinit, _, hkey, _, _, hlegible, _⟩, ⟨hplaini, hplain, honce, hplainv⟩, h => by
      simp only [Members.depth] at hdepth
      obtain ⟨g₁, hm, h⟩ := Option.bind_eq_some_iff.1 h
      obtain ⟨g₂, hc, h⟩ := Option.bind_eq_some_iff.1 h
      rw [commaGuide_eq hc] at h
      obtain ⟨ms, level, hms, hl₁, ho₁, hnode₁, hread₁⟩ :=
        members_satisfy hwf init hov hl hn hnode hnest (by omega) hinit hplaini hm
      have hn₁ : guidedDepth - g₁.levels.length = n := by
        rw [← hn, hl₁, hl]
        rfl
      obtain ⟨k, j, level', hk, hj, hl', ho', hnode', hread⟩ :=
        member_satisfies hwf (value_satisfies hwf v) ho₁ hl₁ hn₁ (hnode₁ ▸ hnode) hnest (by omega) hkey
          hlegible hplain honce hplainv hread₁ h
      refine ⟨Json.insert ms k j, level', by simp [Members.decode, hms, hk, hj], hl', ho',
        hnode'.trans hnode₁, ?_⟩
      simpa [Members.keys] using hread

end

end GuideState

/-! ## Runs -/

open GuideState in
/-- The value a finished text holds satisfies the root, number at the end of the text apart. -/
theorem text_satisfies {arena : SchemaArena} (hwf : arena.Wf) {inRange : Number → Bool} {t : Text}
    {g : GuideState} (hnest : Nests arena guidedDepth arena.root) (hdepth : t.value.depth ≤ maxDepth)
    (hobs : GuideState.new.observe arena arena.root (textTrace t) = some g)
    (hend : t.value.isNum = false ∨ t.post.bytes ≠ []) (hlegible : t.value.All (legible inRange))
    (hplain : valuePlain arena t.value arena.root) :
    ∃ j, t.value.decode inRange = some j ∧ Satisfies arena inRange arena.root j := by
  obtain ⟨g', hg'⟩ := (JsonConstraint.observe_text hwf hobs).1 hend
  have hexp : GuideState.new.expected arena arena.root = arena.root := rfl
  rw [← hexp] at hnest hplain ⊢
  have hdepth' : t.value.depth ≤ 255 := le_trans hdepth (by decide)
  exact value_satisfies hwf t.value rfl rfl hnest hdepth' hlegible hplain hg'

/-- Guidance is sound where keys are plain: in `Object` mode, when a silent stop token is allowed, a
text has been emitted, and if it is legible and its keys are plain then it denotes a value that
satisfies the root. -/
theorem stop_satisfies (schema : Json) (hschema : schema.Wf) (inRange : Number → Bool)
    (table : TokenByteTable) (vocabSize : Nat) (ts : List Nat) (c : JsonConstraint) (stop : Nat)
    (hnest : Nests (.compile schema) guidedDepth (SchemaArena.compile schema).root)
    (hrun : JsonConstraint.Run (.new table .object (.compile schema)) vocabSize ts c)
    (hsilent : table.Silent stop) (hok : (c.allowed vocabSize)[stop]? = some true) :
    (∃ t : Text, t.print = table.emitted ts) ∧
      ∀ t : Text, t.print = table.emitted ts → t.value.All (legible inRange) →
        valuePlain (.compile schema) t.value (SchemaArena.compile schema).root →
        ∃ j, t.value.decode inRange = some j ∧
          Satisfies (.compile schema) inRange (SchemaArena.compile schema).root j := by
  have hwf := SchemaArena.compile_wf hschema
  have hreached := JsonConstraint.run_reached hrun
  obtain ⟨t, hprint, -⟩ := JsonConstraint.text_of_stop hreached hsilent hok
  refine ⟨⟨t, hprint⟩, fun t hprint hlegible hplain => ?_⟩
  rw [← hprint] at hreached
  obtain ⟨⟨-, hdepth⟩, hobs⟩ := JsonConstraint.reached_text hreached
  obtain ⟨τ, ht, -⟩ := JsonConstraint.reached_trace hreached
  have hroot := JsonConstraint.rootOk_of_trace ht rfl rfl
  have hend : t.value.isNum = false := by
    cases hv : t.value <;> rw [hv] at hroot <;> first | rfl | cases hroot
  exact text_satisfies hwf hnest hdepth hobs (.inl hend) hlegible hplain

/-- `{"type":"object","properties":{"a":{"type":"integer"}}}` -/
def integerA : Json := .obj
  [(bytesOf "type", .str (bytesOf "object")),
    (bytesOf "properties", .obj [(bytesOf "a", .obj [(bytesOf "type", .str (bytesOf "integer"))])])]

theorem integerA_compiled :
    SchemaArena.compile integerA = ⟨[.any, .number true, .object [([0x61], 1)] 0#64 true]⟩ := rfl

theorem integerA_wf : integerA.Wf := by
  refine .obj _ (by decide) ?_
  simp only [List.mem_cons, List.not_mem_nil, or_false, forall_eq_or_imp, forall_eq]
  refine ⟨.str _, .obj _ (by decide) ?_⟩
  simp only [List.mem_cons, List.not_mem_nil, or_false, forall_eq]
  refine .obj _ (by decide) ?_
  simp only [List.mem_cons, List.not_mem_nil, or_false, forall_eq]
  exact .str _

theorem integerA_nests : Nests (.compile integerA) guidedDepth (SchemaArena.compile integerA).root := by
  simp [Nests, integerA_compiled, SchemaArena.node, SchemaArena.root, SchemaArena.nodeId, guidedDepth]

/-- `{"\u0061":"x"}` -/
def escapedKey : Text := ⟨.empty, .obj (.one .empty [.unicode 0x30 0x30 0x36 0x31 (by decide)] .empty .empty
  (.str [.plain 0x78 (by decide)]) .empty), .empty⟩

/-- The key `"\u0061"` denotes the property `a` and escapes its node: a string stands where the schema
asks for an integer. -/
theorem escapedKey_unsound :
    integerA.Wf ∧ Nests (.compile integerA) guidedDepth (SchemaArena.compile integerA).root ∧
      JsonConstraint.Run (.new (.single escapedKey.print) .object (.compile integerA)) 2 [0]
        (JsonConstraint.advance (.new (.single escapedKey.print) .object (.compile integerA)) 0) ∧
      (JsonConstraint.allowed (JsonConstraint.advance
        (.new (.single escapedKey.print) .object (.compile integerA)) 0) 2)[1]? = some true ∧
      escapedKey.print = (TokenByteTable.single escapedKey.print).emitted [0] ∧
      escapedKey.value.decode (fun _ => true) = some (.obj [([0x61], .str [0x78])]) ∧
      ¬ Satisfies (.compile integerA) (fun _ => true) (SchemaArena.compile integerA).root
        (.obj [([0x61], .str [0x78])]) := by
  refine ⟨integerA_wf, integerA_nests, .snoc .nil (by decide +kernel), by decide +kernel, by decide, rfl, ?_⟩
  have hroot : (SchemaArena.compile integerA).node (SchemaArena.compile integerA).root =
    .object [([0x61], 1)] 0#64 true := rfl
  have ha : (SchemaArena.compile integerA).node 1 = .number true := rfl
  intro h
  cases h with
  | any h => rw [hroot] at h; cases h
  | enum h => rw [hroot] at h; cases h
  | object h _ hprops =>
      rw [hroot] at h
      cases h
      have hx := hprops ([0x61], 1) (by simp) (.str [0x78]) rfl
      cases hx with
      | any h => rw [ha] at h; cases h
      | str h => rw [ha] at h; cases h
      | enum h => rw [ha] at h; cases h

/-- `{"a":1}` -/
def plainKey : Text := ⟨.empty, .obj (.one .empty [.plain 0x61 (by decide)] .empty .empty
  (.num ⟨false, .lead 0x31 [] (by decide) (by simp), none, none⟩) .empty), .empty⟩

/-- `{"a":1}` is emitted under the same schema and satisfies it. -/
theorem stop_satisfies_plainKey : ∃ j, plainKey.value.decode (fun _ => true) = some j ∧
    Satisfies (.compile integerA) (fun _ => true) (SchemaArena.compile integerA).root j :=
  (stop_satisfies integerA integerA_wf (fun _ => true) (.single plainKey.print) 2 [0]
    (JsonConstraint.advance (.new (.single plainKey.print) .object (.compile integerA)) 0) 1
    integerA_nests (.snoc .nil (by decide +kernel)) rfl (by decide +kernel)).2 plainKey (by decide)
    (by simp [plainKey, Value.All, Members.All, legible, Str.decode, Str.resolve, utf8Ok])
    (by
      have hroot : (SchemaArena.compile integerA).node (SchemaArena.compile integerA).root =
        .object [([0x61], 1)] 0#64 true := rfl
      simp only [plainKey, valuePlain, hroot, membersPlain, KeyPlain]
      simp [Str.body, JsonText.Char.print, Str.decode, Str.resolve, utf8Ok])

end Oxydllm.Constrain
