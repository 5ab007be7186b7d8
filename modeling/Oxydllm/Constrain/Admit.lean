/-
# Oxydllm.Constrain.Admit — what schema guidance takes of the compact text of a value.

`Admits` says of a compiled node what its walker asks of a value that is written compactly, with `n` more
levels to guide: keys are compared as they are written, and a container below the last level is free. An
admitted value is read to its end (`admits_takes`).
-/
import Oxydllm.Constrain.Progress
import Oxydllm.Constrain.Satisfy

namespace Oxydllm.Constrain

open JsonText GuideState

/-- A key as it is written. -/
def keySpelling (k : List UInt8) : List UInt8 := Str.body (Str.escape k)

/-- A name that is written as it is, and in which the walker's position does not wrap. -/
def SelfSpelled (k : List UInt8) : Prop := keySpelling k = k ∧ k.length < 65536

/-- The compact text of the value is one the node asks for. -/
inductive Admits (arena : SchemaArena) : Nat → NodeId → Json → Prop where
  | any {n id j} (h : arena.node id = .any) : Admits arena n id j
  | str {n id s} (h : arena.node id = .str) : Admits arena n id (.str s)
  | number {n id x integer} (h : arena.node id = .number integer)
      (hint : integer = true → x.isIntegral) : Admits arena n id (.num x)
  | boolean {n id b} (h : arena.node id = .boolean) : Admits arena n id (.bool b)
  | null {n id} (h : arena.node id = .null) : Admits arena n id .null
  | enum {n id literals j} (h : arena.node id = .enum literals) (hscalar : j.toValue.isScalar)
      (hmem : j.toVec ∈ literals) (hlen : j.toVec.length ≤ 65536) : Admits arena n id j
  | array {n id items xs} (h : arena.node id = .array items)
      (hitems : ∀ m, n = m + 1 → ∀ x ∈ xs, Admits arena m items x) : Admits arena n id (.arr xs)
  | object {n id props required additional ms} (h : arena.node id = .object props required additional)
      (hspelled : ∀ m, n = m + 1 → ∀ p ∈ ms, ∀ q ∈ props, keySpelling p.1 = q.1 → p.1 = q.1)
      (hknown : ∀ m, n = m + 1 → additional = false → ∀ p ∈ ms, SelfSpelled p.1 ∧ ∃ q ∈ props, q.1 = p.1)
      (hrequired : ∀ m, n = m + 1 → ∀ i q, props[i]? = some q → required.getLsbD i = true →
        q.1 ∈ ms.map Prod.fst ∧ SelfSpelled q.1)
      (hmembers : ∀ m, n = m + 1 → ∀ p ∈ ms, Admits arena m (propNode props p.1) p.2) :
      Admits arena n id (.obj ms)

namespace GuideState

variable {arena : SchemaArena}

/-- The levels that are still to be guided. -/
def roomLeft (g : GuideState) : Nat := if g.overflow > 0 then 0 else guidedDepth - g.levels.length

/-! ## Scalars -/

/-- A number spelled as an integer has neither a point nor an exponent. -/
theorem print_integral {n : Number} (h : n.isIntegral) :
    ∀ b ∈ n.print, ¬ (b = 0x2E ∨ b = 0x65 ∨ b = 0x45) := by
  obtain ⟨neg, int, frac, exp⟩ := n
  simp only [Number.isIntegral, Bool.and_eq_true, Option.isNone_iff_eq_none] at h
  obtain ⟨rfl, rfl⟩ := h
  have hdigit : ∀ b, isDigit b → ¬ (b = 0x2E ∨ b = 0x65 ∨ b = 0x45) := by
    rintro b hb (rfl | rfl | rfl) <;> exact absurd hb (by decide)
  intro b hb
  simp only [Number.print, Number.printInt, Number.printFrac, Number.printExp, List.append_nil,
    List.mem_append] at hb
  rcases hb with hb | hb
  · cases neg
    · cases hb
    · rw [List.mem_singleton.1 hb]
      decide
  · cases int with
    | zero =>
        rw [List.mem_singleton.1 hb]
        decide
    | lead d rest hd hrest =>
        rcases List.mem_cons.1 hb with rfl | hb
        · exact hdigit b (by grind [isDigit, isDigit19])
        · exact hdigit b (hrest b hb)

theorem closed_takes {g : GuideState} {b c : UInt8} {w : List UInt8}
    (hstart : startScalar arena (g.expected arena arena.root) b = some .free) :
    ∃ g', g.closedGuide arena arena.root (b :: (w ++ [c])) = some g' := by
  obtain ⟨g₁, he, hval⟩ := enter_of_start hstart
  exact closed_of_free he hval

theorem lit_takes (l : Literal) {g : GuideState}
    (hstart : ∀ b, l.print.head? = some b → startScalar arena (g.expected arena arena.root) b = some .free) :
    ∃ g', valueGuide arena arena.root (.lit l) g = some g' := by
  cases l with
  | true => exact closed_takes (w := [0x72, 0x75]) (hstart _ rfl)
  | false => exact closed_takes (w := [0x61, 0x6C, 0x73]) (hstart _ rfl)
  | null => exact closed_takes (w := [0x75, 0x6C]) (hstart _ rfl)

theorem str_takes (s : Str) {g : GuideState}
    (hstart : startScalar arena (g.expected arena arena.root) 0x22 = some .free) :
    ∃ g', valueGuide arena arena.root (.str s) g = some g' :=
  closed_takes hstart

/-- A number is read where the guide lets one start, if it is spelled as an integer where it must be. -/
theorem num_takes (n : Number) {g : GuideState} {val : ValCtx}
    (hstart : ∀ b, b = 0x2D ∨ (0x30 ≤ b ∧ b ≤ 0x39) →
      startScalar arena (g.expected arena arena.root) b = some val)
    (hval : val = .free ∨ (val = .intNumber ∧ n.isIntegral)) :
    ∃ g', valueGuide arena arena.root (.num n) g = some g' := by
  obtain ⟨b, w, hprint, hb⟩ := number_head n
  obtain ⟨g₁, he, hv⟩ := enter_of_start (hstart b hb)
  have hreads : g₁.reads arena w = some g₁ := by
    rcases hval with hfree | ⟨hint, hintegral⟩
    · exact reads_free (hv.trans hfree) w
    · rw [reads_intNumber (hv.trans hint), if_neg]
      rintro ⟨c, hc, hbad⟩
      exact print_integral hintegral c (by rw [hprint]; exact List.mem_cons_of_mem b hc) hbad
  have hguide : g.numberGuide arena arena.root n.print = some g₁ := by
    rw [hprint, numberGuide, he, Option.bind_some, hreads]
  exact number_settles hguide (hval.imp (hv.trans ·) fun h => hv.trans h.1)

/-- An admitted scalar is read. -/
theorem scalar_takes (hwf : arena.Wf) {j : Json} (hscalar : j.toValue.isScalar) {n : Nat} {g : GuideState}
    (h : Admits arena n (g.expected arena arena.root) j) :
    ∃ g', valueGuide arena arena.root j.toValue g = some g' := by
  cases h with
  | any hnode =>
      have hstart : ∀ b, startScalar arena (g.expected arena arena.root) b = some .free :=
        fun b => by simp [startScalar, hnode]
      cases j with
      | null => exact lit_takes .null fun b _ => hstart b
      | bool b => cases b <;> exact lit_takes _ fun b _ => hstart b
      | num x => exact num_takes x (fun b _ => hstart b) (.inl rfl)
      | str s => exact str_takes _ (hstart _)
      | arr xs => cases xs <;> cases hscalar
      | obj ms => cases ms <;> cases hscalar
  | str hnode => exact str_takes _ (by simp [startScalar, hnode])
  | @number _ _ x integer hnode hint =>
      cases integer with
      | true => exact num_takes x (fun b hb => by simp [startScalar, hnode, hb]) (.inr ⟨rfl, hint rfl⟩)
      | false => exact num_takes x (fun b hb => by simp [startScalar, hnode, hb]) (.inl rfl)
  | @boolean _ _ b hnode =>
      cases b with
      | true => exact lit_takes .true fun c hc => by cases hc; simp [startScalar, hnode]
      | false => exact lit_takes .false fun c hc => by cases hc; simp [startScalar, hnode]
  | null hnode => exact lit_takes .null fun c hc => by cases hc; simp [startScalar, hnode]
  | enum hnode _ hmem hlen => exact enum_takes hwf hnode hscalar hmem hlen
  | array _ _ => rename_i xs _ _; cases xs <;> cases hscalar
  | object _ _ _ _ _ => rename_i ms _ _ _ _ _; cases ms <;> cases hscalar

/-! ## Lists of items and members -/

theorem toItems_takes {S : GuideState → Prop} (xs : List Json) {init : Items} {g g₁ : GuideState}
    (hinit : itemsGuide arena arena.root init g = some g₁) (h₁ : S g₁)
    (hstep : ∀ x ∈ xs, ∀ g, S g → ∃ g', valueGuide arena arena.root x.toValue g = some g' ∧ S g') :
    ∃ g', itemsGuide arena arena.root (Json.toItems init xs) g = some g' ∧ S g' := by
  induction xs generalizing init g₁ with
  | nil => exact ⟨g₁, hinit, h₁⟩
  | cons x xs ih =>
      obtain ⟨g₂, hx, h₂⟩ := hstep x List.mem_cons_self g₁ h₁
      rw [Json.toItems]
      refine ih ?_ h₂ fun y hy => hstep y (List.mem_cons_of_mem x hy)
      rw [itemsGuide, hinit, Option.bind_some, hx]

/-- A member is read where those before it have been. -/
def TakesMember (arena : SchemaArena) (S : List (List UInt8 × Json) → GuideState → Prop)
    (done : List (List UInt8 × Json)) (m : List UInt8 × Json) : Prop :=
  ∀ g, S done g → ∃ g₁ g₂, g.keyGuide arena (Str.escape m.1) = some g₁ ∧
    valueGuide arena arena.root m.2.toValue g₁ = some g₂ ∧ S (done ++ [m]) g₂

theorem toMembers_takes {S : List (List UInt8 × Json) → GuideState → Prop}
    (rest : List (List UInt8 × Json)) {done : List (List UInt8 × Json)} {init : Members}
    {g g₁ : GuideState} (hinit : membersGuide arena arena.root init g = some g₁) (h₁ : S done g₁)
    (hstep : ∀ u m w, done ++ rest = u ++ m :: w → TakesMember arena S u m) :
    ∃ g', membersGuide arena arena.root (Json.toMembers init rest) g = some g' ∧ S (done ++ rest) g' := by
  induction rest generalizing done init g₁ with
  | nil => exact ⟨g₁, hinit, by rwa [List.append_nil]⟩
  | cons m rest ih =>
      obtain ⟨k, x⟩ := m
      obtain ⟨g₂, g₃, hkey, hx, h₃⟩ := hstep done (k, x) rest rfl g₁ h₁
      rw [Json.toMembers]
      have hnext : membersGuide arena arena.root
          (.snoc init .empty (Str.escape k) .empty .empty x.toValue .empty) g = some g₃ := by
        rw [membersGuide, hinit, Option.bind_some, commaGuide_of_key hkey, Option.bind_some, hkey,
          Option.bind_some, hx]
      have hsplit : done ++ (k, x) :: rest = done ++ [(k, x)] ++ rest := by simp
      rw [hsplit] at hstep ⊢
      exact ih hnext h₃ hstep

/-! ## Containers -/

/-- Outside of guided objects. -/
def Unkeyed (arena : SchemaArena) (g : GuideState) : Prop :=
  g.overflow = 0 → ∃ level rest, g.levels = level :: rest ∧
    ∀ props required additional, arena.node level.node ≠ .object props required additional

/-- Where nothing is guided. -/
def Loose (arena : SchemaArena) (g : GuideState) : Prop :=
  g.overflow = 0 → ∃ level rest, g.levels = level :: rest ∧ arena.node level.node = .any

theorem Loose.unkeyed {g : GuideState} (h : Loose arena g) : Unkeyed arena g := by
  intro ho
  obtain ⟨level, rest, hl, hnode⟩ := h ho
  exact ⟨level, rest, hl, fun _ _ _ hobj => by rw [hnode] at hobj; cases hobj⟩

theorem Loose.keeps {g g' : GuideState} (h : Loose arena g) (hk : KeepsEmitted g g') : Loose arena g' := by
  intro ho
  obtain ⟨level, rest, hl, hnode⟩ := h (hk.overflow_eq ▸ ho)
  obtain ⟨level', hl', hnode', -⟩ := hk.level hl
  exact ⟨level', rest, hl', by rw [hnode', hnode]⟩

theorem Loose.expected {g : GuideState} (h : Loose arena g) : g.expected arena arena.root = anyId := by
  by_cases ho : g.overflow > 0
  · rw [GuideState.expected, if_pos ho]
  · obtain ⟨level, rest, hl, hnode⟩ := h (by omega)
    simp [GuideState.expected, hl, hnode]

/-- Any key is taken, and nothing is recorded. -/
theorem Loose.key {g : GuideState} (h : Loose arena g) (key : Str) :
    g.keyGuide arena key = some { g with val := .free } := by
  have havail : g.hasAvailableKey arena = true ∧ g.startKey arena = { g with val := .free } := by
    by_cases ho : g.overflow > 0
    · simp [hasAvailableKey, startKey, ho]
    · obtain ⟨level, rest, hl, hnode⟩ := h (by omega)
      simp [hasAvailableKey, startKey, hl, hnode]
  rw [keyGuide, if_pos havail.1, havail.2, reads_free rfl, Option.bind_some, finishKey]

/-- Reading a value changes neither the node that governs the next one nor how deep guidance goes on. -/
theorem Unkeyed.keeps {g g' : GuideState} (h : Unkeyed arena g) (hk : KeepsEmitted g g') :
    Unkeyed arena g' ∧ g'.expected arena arena.root = g.expected arena arena.root ∧
      g'.roomLeft = g.roomLeft := by
  have hov := hk.overflow_eq
  by_cases ho : g.overflow > 0
  · refine ⟨fun h0 => absurd h0 (by omega), ?_, ?_⟩
    · rw [GuideState.expected, if_pos (by omega), GuideState.expected, if_pos ho]
    · rw [roomLeft, if_pos (by omega), roomLeft, if_pos ho]
  · obtain ⟨level, rest, hl, hnode⟩ := h (by omega)
    obtain ⟨level', hl', hnode', -⟩ := hk.level hl
    refine ⟨fun _ => ⟨level', rest, hl', by rwa [hnode']⟩, ?_, ?_⟩
    · rw [GuideState.expected, if_neg (by omega), GuideState.expected, if_neg ho, hl, hl']
      simp only [hnode']
      cases hn : arena.node level.node with
      | object props required additional => exact absurd hn (hnode _ _ _)
      | _ => rfl
    · rw [roomLeft, if_neg (by omega), roomLeft, if_neg ho, hl, hl']
      rfl

/-- A container that is opened as a level of its own. -/
theorem enter_level {g g₁ : GuideState} {b : UInt8} (hb : b = 0x7B ∨ b = 0x5B) (hov : g.overflow < 255)
    (he : g.enter arena arena.root b = some g₁) {m : Nat} (hroom : g.roomLeft = m + 1) :
    g₁.overflow = 0 ∧
      g₁.levels = ⟨levelNode arena (g.expected arena arena.root), 0#64, none⟩ :: g.levels ∧
      g₁.roomLeft = m := by
  unfold roomLeft at hroom ⊢
  rcases enter_container hb hov he with ⟨h0, hlen, ho, hl⟩ | ⟨hdeep, -, -⟩
  · refine ⟨ho, hl, ?_⟩
    rw [if_neg (by omega)] at hroom ⊢
    rw [hl, List.length_cons]
    omega
  · exfalso
    split at hroom <;> omega

/-- A container that is free, or below the last level. -/
theorem enter_loose (hwf : arena.Wf) {g g₁ : GuideState} {b : UInt8} (hb : b = 0x7B ∨ b = 0x5B)
    (hov : g.overflow < 255) (he : g.enter arena arena.root b = some g₁)
    (h : g.roomLeft = 0 ∨ arena.node (g.expected arena arena.root) = .any) : Loose arena g₁ := by
  intro h0
  rcases enter_container hb hov he with ⟨ho, hlen, -, hl⟩ | ⟨-, ho, -⟩
  · refine ⟨_, _, hl, ?_⟩
    rcases h with h | h
    · exfalso
      rw [roomLeft, if_neg (by omega)] at h
      omega
    · simp only [levelNode, h]
      exact hwf.node_any
  · omega

theorem array_takes {xs : List Json} {g g₁ : GuideState} (he : g.enter arena arena.root 0x5B = some g₁)
    (hun : Unkeyed arena g₁) (hdepth : ∀ x ∈ xs, g₁.overflow + x.toValue.depth ≤ 255)
    (hx : ∀ x ∈ xs, ∀ g, KeepsEmitted g₁ g → ∃ g', valueGuide arena arena.root x.toValue g = some g') :
    ∃ g', valueGuide arena arena.root (Json.arr xs).toValue g = some g' := by
  have hself : KeepsEmitted g₁ g₁ := keepsEmitted_of_eq rfl rfl
  have hstep : ∀ x ∈ xs, ∀ g, KeepsEmitted g₁ g →
      ∃ g', valueGuide arena arena.root x.toValue g = some g' ∧ KeepsEmitted g₁ g' := by
    intro x hmem g hk
    obtain ⟨g', hg'⟩ := hx x hmem g hk
    have hd := hdepth x hmem
    exact ⟨g', hg', hk.trans (valueGuide_keeps _ (by rw [hk.overflow_eq]; exact hd) hg')⟩
  cases xs with
  | nil =>
      obtain ⟨g₂, hclose⟩ := closes_of_not_object hun
      exact ⟨g₂, by rw [Json.toValue, valueGuide, he, Option.bind_some, hclose]⟩
  | cons x xs =>
      obtain ⟨g₂, hg₂, hk₂⟩ := hstep x List.mem_cons_self g₁ hself
      have hone : itemsGuide arena arena.root (.one .empty x.toValue .empty) g₁ = some g₂ := hg₂
      obtain ⟨g₃, hitems, hk₃⟩ := toItems_takes (S := KeepsEmitted g₁) xs hone hk₂
        fun y hy => hstep y (List.mem_cons_of_mem x hy)
      obtain ⟨g₄, hclose⟩ := closes_of_not_object (hun.keeps hk₃).1
      exact ⟨g₄, by rw [Json.toValue, valueGuide, he, Option.bind_some, hitems, Option.bind_some, hclose]⟩

theorem object_takes {ms : List (List UInt8 × Json)} {S : List (List UInt8 × Json) → GuideState → Prop}
    {g g₁ : GuideState} (he : g.enter arena arena.root 0x7B = some g₁) (h₁ : S [] g₁)
    (hmember : ∀ u m w, ms = u ++ m :: w → TakesMember arena S u m)
    (hclose : ∀ g, S ms g → ∃ g', g.closeContainer arena = some g') :
    ∃ g', valueGuide arena arena.root (Json.obj ms).toValue g = some g' := by
  cases ms with
  | nil =>
      obtain ⟨g₂, hclose⟩ := hclose g₁ h₁
      exact ⟨g₂, by rw [Json.toValue, valueGuide, he, Option.bind_some, hclose]⟩
  | cons m ms =>
      obtain ⟨k, x⟩ := m
      obtain ⟨g₂, g₃, hkey, hx, h₃⟩ := hmember [] (k, x) ms rfl g₁ h₁
      have hone : membersGuide arena arena.root (.one .empty (Str.escape k) .empty .empty x.toValue .empty) g₁ =
          some g₃ := by
        rw [membersGuide, hkey, Option.bind_some, hx]
      obtain ⟨g₄, hmembers, h₄⟩ := toMembers_takes ms hone h₃ hmember
      obtain ⟨g₅, hclose⟩ := hclose g₄ h₄
      exact ⟨g₅, by rw [Json.toValue, valueGuide, he, Option.bind_some, hmembers, Option.bind_some, hclose]⟩

/-! ## Guided objects -/

/-- Inside a guided object, the members `done` being read. -/
def Between (id : NodeId) (rest : List Level) (props : List (List UInt8 × NodeId))
    (done : List (List UInt8 × Json)) (g : GuideState) : Prop :=
  g.overflow = 0 ∧ ∃ level, g.levels = level :: rest ∧ level.node = id ∧
    ∀ i q, props[i]? = some q →
      (level.emitted.getLsbD i = true ↔ q.1 ∈ done.map Prod.fst ∧ SelfSpelled q.1)

section

variable {id : NodeId} {rest : List Level} {props : List (List UInt8 × NodeId)} {required : BitVec 64}
  {additional : Bool}

/-- The key of a member puts its value under the node of the property it names, or leaves it free. -/
theorem between_key (hwf : arena.Wf) (hnode : arena.node id = .object props required additional)
    {done : List (List UInt8 × Json)} {g : GuideState} (h : Between id rest props done g)
    {k : List UInt8} (hnew : k ∉ done.map Prod.fst) (hspelled : ∀ q ∈ props, keySpelling k = q.1 → k = q.1)
    (hknown : additional = false → SelfSpelled k ∧ ∃ q ∈ props, q.1 = k) :
    ∃ g₁ level, g.keyGuide arena (Str.escape k) = some g₁ ∧ g₁.overflow = 0 ∧ g₁.levels = level :: rest ∧
      level.node = id ∧ (g₁.expected arena arena.root = propNode props k ∨ g₁.expected arena arena.root = anyId) ∧
      ∀ i q, props[i]? = some q →
        (level.emitted.getLsbD i = true ↔ (q.1 ∈ done.map Prod.fst ∨ q.1 = k) ∧ SelfSpelled q.1) := by
  have hobj := hwf.node_wf id
  rw [hnode] at hobj
  obtain ⟨hsize, hkeys, -, -⟩ := hobj
  obtain ⟨ho, level, hl, rfl, hemitted⟩ := h
  by_cases hdeclared : SelfSpelled k ∧ ∃ q ∈ props, q.1 = k
  · obtain ⟨⟨hspell, hshort⟩, ⟨w, n⟩, hq, rfl⟩ := hdeclared
    obtain ⟨i, hi⟩ := List.mem_iff_getElem?.1 hq
    have hunset : level.emitted.getLsbD i = false := by
      by_contra hset
      exact hnew ((hemitted i _ hi).1 (by simpa using hset)).1
    have hname : Names props level.emitted (keySpelling w) i :=
      ⟨hunset, by rw [hspell]; exact hshort, n, by rw [hspell]; exact hi⟩
    refine ⟨_, _, keyGuide_declared ho hl hnode hsize hkeys hname, ho, rfl, rfl, .inl ?_, fun i' q' hi' => ?_⟩
    · simp [GuideState.expected, ho, hnode, hi, propNode_of_getElem hkeys hi]
    · have hlt : i' < 64 := lt_of_lt_of_le (List.getElem?_eq_some_iff.1 hi').1 hsize
      rw [Mask.getLsbD_insert hlt, Bool.or_eq_true, decide_eq_true_eq, hemitted i' q' hi', or_and_right]
      refine or_congr_right ⟨fun heq => ?_, fun hnamed => ?_⟩
      · subst heq
        rw [hi] at hi'
        cases hi'
        exact ⟨rfl, hspell, hshort⟩
      · have hq' := List.inj_on_of_nodup_map hkeys (List.mem_of_getElem? hi') hq hnamed.1
        subst hq'
        obtain ⟨hlt', hget'⟩ := List.getElem?_eq_some_iff.1 hi'
        obtain ⟨hlti, hgeti⟩ := List.getElem?_eq_some_iff.1 hi
        have hinj : props[i] = props[i'] ↔ i = i' := (List.Nodup.of_map _ hkeys).getElem_inj_iff
        exact hinj.1 (hgeti.trans hget'.symm)
  · -- a key that is not declared, or not spelled as it is declared
    have hname : ∀ i, ¬ Names props level.emitted (keySpelling k) i := by
      rintro i ⟨-, hshort, n, hi⟩
      have hq := List.mem_of_getElem? hi
      have hself : k = keySpelling k := hspelled _ hq rfl
      exact hdeclared ⟨⟨hself.symm, by rwa [← hself] at hshort⟩, _, hq, hself.symm⟩
    have hadd : additional = true := by
      by_contra hadd
      exact hdeclared (hknown (by simpa using hadd))
    have hkey := keyGuide_unknown ho hl hnode hsize hname
    rw [if_pos hadd] at hkey
    refine ⟨_, _, hkey, ho, rfl, rfl, .inr ?_, fun i q hi => ?_⟩
    · simp [GuideState.expected, ho, hnode]
    · rw [hemitted i q hi]
      refine and_congr_left fun hself => ⟨.inl, fun h => h.resolve_right fun heq => ?_⟩
      subst heq
      exact hdeclared ⟨hself, q, List.mem_of_getElem? hi, rfl⟩

/-- With every required member read the object may close. -/
theorem between_close (hwf : arena.Wf) (hnode : arena.node id = .object props required additional)
    {done : List (List UInt8 × Json)} {g : GuideState} (h : Between id rest props done g)
    (hrequired : ∀ i q, props[i]? = some q → required.getLsbD i = true →
      q.1 ∈ done.map Prod.fst ∧ SelfSpelled q.1) :
    ∃ g', g.closeContainer arena = some g' := by
  have hobj := hwf.node_wf id
  rw [hnode] at hobj
  obtain ⟨-, -, -, hlt⟩ := hobj
  obtain ⟨ho, level, hl, rfl, hemitted⟩ := h
  have hdone : level.emitted &&& required = required := by
    refine Mask.and_eq_right_iff.2 fun i _ hbit => ?_
    have hi := List.getElem?_eq_getElem (hlt i hbit)
    exact (hemitted i _ hi).2 (hrequired i _ hi hbit)
  exact closes_object ho hl hnode hdone

end

/-! ## Values -/

theorem items_depth (xs : List Json) (init : Items) :
    init.depth ≤ (Json.toItems init xs).depth ∧ ∀ x ∈ xs, x.toValue.depth ≤ (Json.toItems init xs).depth := by
  induction xs generalizing init with
  | nil => exact ⟨le_rfl, List.forall_mem_nil _⟩
  | cons x xs ih =>
      rw [Json.toItems]
      obtain ⟨hinit, hrest⟩ := ih (.snoc init .empty x.toValue .empty)
      simp only [Items.depth, max_le_iff] at hinit
      exact ⟨hinit.1, List.forall_mem_cons.2 ⟨hinit.2, hrest⟩⟩

theorem members_depth (ms : List (List UInt8 × Json)) (init : Members) :
    init.depth ≤ (Json.toMembers init ms).depth ∧
      ∀ m ∈ ms, m.2.toValue.depth ≤ (Json.toMembers init ms).depth := by
  induction ms generalizing init with
  | nil => exact ⟨le_rfl, List.forall_mem_nil _⟩
  | cons m ms ih =>
      obtain ⟨k, x⟩ := m
      rw [Json.toMembers]
      obtain ⟨hinit, hrest⟩ := ih (.snoc init .empty (Str.escape k) .empty .empty x.toValue .empty)
      simp only [Members.depth, max_le_iff] at hinit
      exact ⟨hinit.1, List.forall_mem_cons.2 ⟨hinit.2, hrest⟩⟩

/-- What is in a container is nested less deep. -/
theorem depth_of_mem (xs : List Json) : 1 ≤ (Json.arr xs).toValue.depth ∧
    ∀ x ∈ xs, x.toValue.depth + 1 ≤ (Json.arr xs).toValue.depth := by
  cases xs with
  | nil => exact ⟨le_rfl, List.forall_mem_nil _⟩
  | cons x xs =>
      obtain ⟨hone, hrest⟩ := items_depth xs (.one .empty x.toValue .empty)
      rw [Json.toValue, Value.depth]
      exact ⟨Nat.le_add_left _ _, List.forall_mem_cons.2
        ⟨Nat.succ_le_succ hone, fun y hy => Nat.succ_le_succ (hrest y hy)⟩⟩

theorem depth_of_member (ms : List (List UInt8 × Json)) : 1 ≤ (Json.obj ms).toValue.depth ∧
    ∀ m ∈ ms, m.2.toValue.depth + 1 ≤ (Json.obj ms).toValue.depth := by
  cases ms with
  | nil => exact ⟨le_rfl, List.forall_mem_nil _⟩
  | cons m ms =>
      obtain ⟨k, x⟩ := m
      obtain ⟨hone, hrest⟩ := members_depth ms (.one .empty (Str.escape k) .empty .empty x.toValue .empty)
      rw [Json.toValue, Value.depth]
      exact ⟨Nat.le_add_left _ _, List.forall_mem_cons.2
        ⟨Nat.succ_le_succ hone, fun y hy => Nat.succ_le_succ (hrest y hy)⟩⟩

/-- What governs the elements of an admitted array. -/
theorem array_opens (hwf : arena.Wf) {xs : List Json} {g : GuideState} (hov : g.overflow < 255)
    (h : Admits arena g.roomLeft (g.expected arena arena.root) (.arr xs)) :
    ∃ g₁, g.enter arena arena.root 0x5B = some g₁ ∧ Unkeyed arena g₁ ∧
      ∀ x ∈ xs, Admits arena g₁.roomLeft (g₁.expected arena arena.root) x := by
  have hfree : ∀ g₁, g.enter arena arena.root 0x5B = some g₁ →
      g.roomLeft = 0 ∨ arena.node (g.expected arena arena.root) = .any →
        Unkeyed arena g₁ ∧ ∀ x ∈ xs, Admits arena g₁.roomLeft (g₁.expected arena arena.root) x := by
    intro g₁ he hloose
    have hg₁ := enter_loose hwf (.inr rfl) hov he hloose
    exact ⟨hg₁.unkeyed, fun x _ => .any (by rw [hg₁.expected]; exact hwf.node_any)⟩
  generalize hn : g.roomLeft = n at h
  generalize hid : g.expected arena arena.root = id at h
  cases h with
  | any hnode =>
      have hstart : startScalar arena (g.expected arena arena.root) 0x5B = some .free := by
        rw [hid]
        simp [startScalar, hnode]
      obtain ⟨g₁, he, -⟩ := enter_of_start hstart
      exact ⟨g₁, he, hfree g₁ he (.inr (by rw [hid]; exact hnode))⟩
  | enum _ hscalar => cases xs <;> cases hscalar
  | @array _ _ items _ hnode hitems =>
      have hstart : startScalar arena (g.expected arena arena.root) 0x5B = some .free := by
        rw [hid]
        simp [startScalar, hnode]
      obtain ⟨g₁, he, -⟩ := enter_of_start hstart
      refine ⟨g₁, he, ?_⟩
      cases n with
      | zero => exact hfree g₁ he (.inl hn)
      | succ m =>
          obtain ⟨ho, hl, hroom⟩ := enter_level (.inr rfl) hov he hn
          have hlevel : levelNode arena (g.expected arena arena.root) = id := by
            simp only [levelNode, hid, hnode]
          rw [hlevel] at hl
          refine ⟨fun _ => ⟨_, _, hl, fun _ _ _ hobj => by rw [hnode] at hobj; cases hobj⟩, fun x hx => ?_⟩
          rw [hroom, expected_array ho hl hnode]
          exact hitems m rfl x hx

/-- An admitted value is read to its end. -/
theorem admits_takes (hwf : arena.Wf) {j : Json} (hj : j.Wf) : ∀ {g : GuideState},
    g.overflow + j.toValue.depth ≤ 255 → Admits arena g.roomLeft (g.expected arena arena.root) j →
      ∃ g', valueGuide arena arena.root j.toValue g = some g' := by
  induction hj with
  | null => exact fun _ h => scalar_takes hwf rfl h
  | bool b => exact fun _ h => scalar_takes hwf (by cases b <;> rfl) h
  | num n _ => exact fun _ h => scalar_takes hwf rfl h
  | str s => exact fun _ h => scalar_takes hwf rfl h
  | arr xs _ ih =>
      intro g hdepth h
      obtain ⟨hpos, hdepths⟩ := depth_of_mem xs
      obtain ⟨g₁, he, hun, hadmits⟩ := array_opens hwf (by omega) h
      have hle := enter_overflow_le (.inr rfl) (by omega) he
      have hroom : ∀ x ∈ xs, g₁.overflow + x.toValue.depth ≤ 255 := fun x hx => by
        have := hdepths x hx
        omega
      refine array_takes he hun hroom fun x hx g' hk => ?_
      obtain ⟨-, hexp, hleft⟩ := hun.keeps hk
      refine ih x hx (by rw [hk.overflow_eq]; exact hroom x hx) ?_
      rw [hexp, hleft]
      exact hadmits x hx
  | obj ms hkeys _ ih =>
      intro g hdepth h
      obtain ⟨hpos, hdepths⟩ := depth_of_member ms
      have hov : g.overflow < 255 := by omega
      have hroom : ∀ {g₁}, g.enter arena arena.root 0x7B = some g₁ →
          ∀ m ∈ ms, g₁.overflow + m.2.toValue.depth ≤ 255 := by
        intro g₁ he m hm
        have hle := enter_overflow_le (.inl rfl) hov he
        have := hdepths m hm
        omega
      -- where nothing is guided every member is taken
      have hfree : ∀ g₁, g.enter arena arena.root 0x7B = some g₁ →
          g.roomLeft = 0 ∨ arena.node (g.expected arena arena.root) = .any →
            ∃ g', valueGuide arena arena.root (Json.obj ms).toValue g = some g' := by
        intro g₁ he hloose
        have hg₁ := enter_loose hwf (.inl rfl) hov he hloose
        refine object_takes (S := fun _ => KeepsEmitted g₁) he (keepsEmitted_of_eq rfl rfl) ?_ fun g' hk =>
          closes_of_not_object (hg₁.keeps hk).unkeyed
        intro u m w hsplit g' hk
        have hmem : m ∈ ms := by rw [hsplit]; simp
        have hkey := (hg₁.keeps hk).key (Str.escape m.1)
        have hk' : KeepsEmitted g₁ { g' with val := .free } := hk.trans (keepsEmitted_of_eq rfl rfl)
        have hbound := hroom he m hmem
        obtain ⟨g₂, hv⟩ := ih m hmem (by rw [hk'.overflow_eq]; exact hbound)
          (.any (by rw [(hg₁.keeps hk').expected]; exact hwf.node_any))
        exact ⟨_, g₂, hkey, hv, hk'.trans (valueGuide_keeps _ (by rw [hk'.overflow_eq]; exact hbound) hv)⟩
      generalize hn : g.roomLeft = n at h
      generalize hid : g.expected arena arena.root = id at h
      cases h with
      | any hnode =>
          have hstart : startScalar arena (g.expected arena arena.root) 0x7B = some .free := by
            rw [hid]
            simp [startScalar, hnode]
          obtain ⟨g₁, he, -⟩ := enter_of_start hstart
          exact hfree g₁ he (.inr (by rw [hid]; exact hnode))
      | enum _ hscalar => cases ms <;> cases hscalar
      | @object _ _ props required additional _ hnode hspelled hknown hrequired hmembers =>
          have hstart : startScalar arena (g.expected arena arena.root) 0x7B = some .free := by
            rw [hid]
            simp [startScalar, hnode]
          obtain ⟨g₁, he, -⟩ := enter_of_start hstart
          cases n with
          | zero => exact hfree g₁ he (.inl hn)
          | succ m =>
              obtain ⟨ho, hl, hleft⟩ := enter_level (.inl rfl) hov he hn
              have hlevel : levelNode arena (g.expected arena arena.root) = id := by
                simp only [levelNode, hid, hnode]
              rw [hlevel] at hl
              refine object_takes (S := Between id g.levels props) he
                ⟨ho, _, hl, rfl, fun i q _ => by simp⟩ ?_ fun g' h =>
                between_close hwf hnode h (hrequired m rfl)
              intro u p w hsplit g' hbetween
              have hmem : p ∈ ms := by rw [hsplit]; simp
              have hnew : p.1 ∉ u.map Prod.fst := by
                rw [hsplit, List.map_append, List.map_cons] at hkeys
                intro hu
                exact (List.nodup_append.1 hkeys).2.2 _ hu _ List.mem_cons_self rfl
              obtain ⟨g₂, level, hkey, ho₂, hl₂, hnode₂, hexp, hemitted⟩ := between_key hwf hnode hbetween hnew
                (hspelled m rfl p hmem) fun hadd => hknown m rfl hadd p hmem
              have hroom₂ : g₂.roomLeft = m := by
                rw [← hleft, roomLeft, roomLeft, ho₂, ho, hl₂, hl]
                rfl
              have hbound : g₂.overflow + p.2.toValue.depth ≤ 255 := by
                have := hroom he p hmem
                omega
              have hadmits : Admits arena g₂.roomLeft (g₂.expected arena arena.root) p.2 := by
                rcases hexp with hexp | hexp
                · rw [hroom₂, hexp]
                  exact hmembers m rfl p hmem
                · exact .any (by rw [hexp]; exact hwf.node_any)
              obtain ⟨g₃, hv⟩ := ih p hmem hbound hadmits
              have hkeeps := valueGuide_keeps _ hbound hv
              obtain ⟨level', hl', hnode', hemitted'⟩ := hkeeps.level hl₂
              refine ⟨g₂, g₃, hkey, hv, hkeeps.overflow_eq.trans ho₂, level', hl', hnode'.trans hnode₂,
                fun i q hi => ?_⟩
              rw [hemitted', hemitted i q hi, List.map_append, List.mem_append, List.map_singleton,
                List.mem_singleton]

end GuideState

/-! ## Compact texts -/

/-- No string of the value, keys included, has a run of spaces that the byte automaton refuses. -/
inductive Spaced : Json → Prop where
  | null : Spaced .null
  | bool (b : Bool) : Spaced (.bool b)
  | num (n : Number) : Spaced (.num n)
  | str (s : List UInt8) (h : ¬ spaceRunTooLong <:+: keySpelling s) : Spaced (.str s)
  | arr (xs : List Json) (h : ∀ x ∈ xs, Spaced x) : Spaced (.arr xs)
  | obj (ms : List (List UInt8 × Json)) (hkeys : ∀ m ∈ ms, ¬ spaceRunTooLong <:+: keySpelling m.1)
      (h : ∀ m ∈ ms, Spaced m.2) : Spaced (.obj ms)

theorem toItems_readable (xs : List Json) {init : Items} (hinit : init.All readable)
    (h : ∀ x ∈ xs, x.toValue.All readable) : (Json.toItems init xs).All readable := by
  induction xs generalizing init with
  | nil => exact hinit
  | cons x xs ih =>
      rw [Json.toItems]
      exact ih ⟨hinit, gap_empty _, h x List.mem_cons_self, gap_empty _⟩
        fun y hy => h y (List.mem_cons_of_mem x hy)

theorem toMembers_readable (ms : List (List UInt8 × Json)) {init : Members} (hinit : init.All readable)
    (h : ∀ m ∈ ms, readable.str (Str.escape m.1) ∧ m.2.toValue.All readable) :
    (Json.toMembers init ms).All readable := by
  induction ms generalizing init with
  | nil => exact hinit
  | cons m ms ih =>
      obtain ⟨k, x⟩ := m
      obtain ⟨hk, hx⟩ := h (k, x) List.mem_cons_self
      rw [Json.toMembers]
      exact ih ⟨hinit, gap_empty _, hk, gap_empty _, gap_empty _, hx, gap_empty _⟩
        fun y hy => h y (List.mem_cons_of_mem _ hy)

/-- The byte automaton reads the compact text. -/
theorem Spaced.readable {j : Json} (h : Spaced j) : j.toValue.All readable := by
  induction h with
  | null => exact trivial
  | bool b => cases b <;> exact trivial
  | num n => exact trivial
  | str s h => exact readable_str h
  | arr xs _ ih =>
      cases xs with
      | nil => exact rfl
      | cons x xs =>
          exact toItems_readable xs ⟨gap_empty _, ih x List.mem_cons_self, gap_empty _⟩
            fun y hy => ih y (List.mem_cons_of_mem x hy)
  | obj ms hkeys _ ih =>
      cases ms with
      | nil => exact gap_empty false
      | cons m ms =>
          obtain ⟨k, x⟩ := m
          exact toMembers_readable ms
            ⟨gap_empty _, readable_str (hkeys _ List.mem_cons_self), gap_empty _, gap_empty _,
              ih _ List.mem_cons_self, gap_empty _⟩
            fun y hy => ⟨readable_str (hkeys y (List.mem_cons_of_mem _ hy)), ih y (List.mem_cons_of_mem _ hy)⟩

/-- The compact text of a value the root admits is walked to its end, and there a stop token is allowed. -/
theorem admitted_walks {arena : SchemaArena} (hwf : arena.Wf) {j : Json} (hj : j.Wf)
    (hdepth : j.toValue.depth ≤ maxDepth) (hspaced : Spaced j)
    (h : Admits arena guidedDepth arena.root j) (table : TokenByteTable) {mode : JsonMode}
    (hmode : mode = .object → j.toValue.isObject) :
    ∃ m g, (JsonConstraint.new table mode arena).walk (.new mode) .new j.toVec = some (m, g) ∧
      ∀ vocabSize stop : Nat, stop < vocabSize → stop ∈ table.stopIds →
        (({ JsonConstraint.new table mode arena with machine := m, guide := g } : JsonConstraint).allowed
          vocabSize)[stop]? = some true := by
  have hbound : GuideState.new.overflow + j.toValue.depth ≤ 255 := by
    rw [show GuideState.new.overflow = 0 from rfl, Nat.zero_add]
    exact hdepth.trans (by decide)
  obtain ⟨g, hg⟩ := GuideState.admits_takes hwf hj hbound h
  have htext : (Text.mk .empty j.toValue .empty).print = j.toVec := by
    simp [Text.print, Json.toVec, Gap.empty]
  obtain ⟨g', hobs⟩ := observe_text_of_takes (t := ⟨.empty, j.toValue, .empty⟩) hwf hg
  obtain ⟨m, hwalk, hacc⟩ : ∃ m, (JsonConstraint.new table mode arena).walk (.new mode) .new
      (Text.mk .empty j.toValue .empty).print = some (m, g') ∧ m.accepting :=
    JsonConstraint.walk_text ⟨gap_empty _, hspaced.readable, gap_empty _⟩ hdepth hmode hobs
  rw [htext] at hwalk
  exact ⟨m, g', hwalk, fun vocabSize stop hlt hstop =>
    (JsonConstraint.allowed_iff _ _ _).2 ⟨hlt, .inr ⟨hacc, hstop⟩⟩⟩

end Oxydllm.Constrain
