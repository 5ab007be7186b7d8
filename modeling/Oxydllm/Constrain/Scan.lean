/-
# Oxydllm.Constrain.Scan — matching a scalar or a key against the schema's strings.

`EnumScan` and `KeyScan` keep the set of strings that agree with the bytes so far, in a mask, and a
position that wraps at 2¹⁶. `scanned` is that set after a byte string, and its bits are read off by
`getLsbD_scanned_iff`. From it follow exact rules for the content of each kind of scalar.
-/
import Oxydllm.Constrain.Walk

namespace Oxydllm.Constrain

open JsonText

/-- The strings still alive after the bytes of `w`. -/
def scanned (strings : List (List UInt8)) : BitVec 64 → Nat → List UInt8 → BitVec 64
  | alive, _, [] => alive
  | alive, pos, b :: w => scanned strings (matching strings alive pos b) (nextPos pos) w

theorem getLsbD_matching_iff {strings : List (List UInt8)} {alive : BitVec 64} {pos : Nat} {b : UInt8}
    {i : Nat} (hi : i < 64) :
    (matching strings alive pos b).getLsbD i = true ↔
      alive.getLsbD i = true ∧ ∃ s, strings[i]? = some s ∧ s[pos]? = some b := by
  rw [matching, Mask.getLsbD_collect_iff hi]
  simp only [Bool.and_eq_true, beq_iff_eq]
  tauto

theorem nextPos_lt (pos : Nat) : nextPos pos < 65536 := Nat.mod_lt _ (by decide)

theorem getLsbD_scanned_iff {strings : List (List UInt8)} {alive : BitVec 64} {pos : Nat}
    (w : List UInt8) {i : Nat} (hi : i < 64) (hpos : pos < 65536) :
    (scanned strings alive pos w).getLsbD i = true ↔
      alive.getLsbD i = true ∧
        ∀ k (hk : k < w.length), ∃ s, strings[i]? = some s ∧ s[(pos + k) % 65536]? = some w[k] := by
  induction w generalizing alive pos with
  | nil => simp [scanned]
  | cons b w ih =>
      have hpos0 : (pos + 0) % 65536 = pos := Nat.mod_eq_of_lt hpos
      have hshift : ∀ k, (nextPos pos + k) % 65536 = (pos + (k + 1)) % 65536 := by
        intro k
        rw [nextPos, Nat.mod_add_mod]
        congr 1
        omega
      rw [scanned, ih (nextPos_lt pos), getLsbD_matching_iff hi]
      constructor
      · rintro ⟨⟨halive, s, hs, hb⟩, hrest⟩
        refine ⟨halive, fun k hk => ?_⟩
        cases k with
        | zero => exact ⟨s, hs, by rw [hpos0]; exact hb⟩
        | succ k =>
            obtain ⟨s', hs', hk'⟩ := hrest k (by simpa using hk)
            exact ⟨s', hs', by rw [← hshift]; simpa using hk'⟩
      · rintro ⟨halive, hall⟩
        obtain ⟨s, hs, hb⟩ := hall 0 (by simp)
        rw [hpos0] at hb
        refine ⟨⟨halive, s, hs, hb⟩, fun k hk => ?_⟩
        obtain ⟨s', hs', hk'⟩ := hall (k + 1) (by simpa using hk)
        exact ⟨s', hs', by rw [hshift]; simpa using hk'⟩

theorem scanned_zero (strings : List (List UInt8)) (pos : Nat) (w : List UInt8) :
    scanned strings 0#64 pos w = 0#64 := by
  induction w generalizing pos with
  | nil => rfl
  | cons b w ih =>
      have hzero : matching strings 0#64 pos b = 0#64 := by
        refine Mask.eq_zero_iff.2 fun j hj => ?_
        rw [matching, Mask.getLsbD_collect _ _ hj]
        simp
      rw [scanned, hzero, ih]

/-! ## Content of each kind of scalar -/

namespace GuideState

variable {arena : SchemaArena} {root : NodeId}

theorem reads_nil (g : GuideState) : g.reads arena [] = some g := rfl

theorem reads_free {g : GuideState} (h : g.val = .free) (w : List UInt8) : g.reads arena w = some g := by
  induction w with
  | nil => rfl
  | cons b w ih => rw [reads_cons, content_free h, Option.bind_some, ih]

theorem reads_intNumber {g : GuideState} (h : g.val = .intNumber) (w : List UInt8) :
    g.reads arena w = if ∃ b ∈ w, b = 0x2E ∨ b = 0x65 ∨ b = 0x45 then none else some g := by
  induction w with
  | nil => simp [reads_nil]
  | cons b w ih =>
      rw [reads_cons]
      by_cases hb : b = 0x2E ∨ b = 0x65 ∨ b = 0x45
      · have hex : ∃ c ∈ b :: w, c = 0x2E ∨ c = 0x65 ∨ c = 0x45 := ⟨b, by simp, hb⟩
        simp only [content, h, if_pos hb, if_pos hex, Option.bind_none]
      · have hiff : (∃ c ∈ b :: w, c = 0x2E ∨ c = 0x65 ∨ c = 0x45) ↔
            ∃ c ∈ w, c = 0x2E ∨ c = 0x65 ∨ c = 0x45 := by simp [hb]
        simp only [content, h, if_neg hb, Option.bind_some, ih, hiff]

/-- Content bytes under an enum narrow the set of literals, which must not become empty. -/
theorem reads_enumScan {g : GuideState} {node : NodeId} {literals : List (List UInt8)}
    {alive : BitVec 64} {pos : Nat} (hnode : arena.node node = .enum literals) (hpos : pos < 65536)
    (h : g.val = .enumScan node alive pos) (w : List UInt8) :
    g.reads arena w =
      if w = [] ∨ scanned literals alive pos w ≠ 0#64 then
        some { g with val := .enumScan node (scanned literals alive pos w) ((pos + w.length) % 65536) }
      else none := by
  induction w generalizing g alive pos with
  | nil =>
      rw [reads_nil, if_pos (.inl rfl), scanned]
      cases g
      simp only at h
      simp [h, Nat.mod_eq_of_lt hpos]
  | cons b w ih =>
      rw [reads_cons]
      by_cases hzero : matching literals alive pos b = 0#64
      · have hnone : g.content arena b {} = none := by simp [content, h, hnode, hzero]
        rw [hnone, scanned, hzero, scanned_zero]
        simp
      · have hsome : g.content arena b {} =
            some { g with val := .enumScan node (matching literals alive pos b) (nextPos pos) } := by
          simp [content, h, hnode, hzero]
        rw [hsome, Option.bind_some, ih (nextPos_lt pos) rfl, scanned]
        have hlen : (nextPos pos + w.length) % 65536 = (pos + (b :: w).length) % 65536 := by
          rw [nextPos, Nat.mod_add_mod, List.length_cons]
          congr 1
          omega
        rw [hlen]
        cases w with
        | nil => simp [scanned, hzero]
        | cons c w => simp

/-- Content bytes of a key narrow the set of names; unless unknown keys are allowed it must not become
empty. -/
theorem reads_keyScan {g : GuideState} {level : Level} {rest : List Level}
    {props : List (List UInt8 × NodeId)} {required : BitVec 64} {additional any : Bool}
    {alive : BitVec 64} {pos : Nat} (hlevels : g.levels = level :: rest)
    (hnode : arena.node level.node = .object props required additional) (hpos : pos < 65536)
    (h : g.val = .keyScan alive pos any) (w : List UInt8) :
    g.reads arena w =
      if any = true ∨ w = [] ∨ scanned (props.map Prod.fst) alive pos w ≠ 0#64 then
        some { g with
          val := .keyScan (scanned (props.map Prod.fst) alive pos w) ((pos + w.length) % 65536) any }
      else none := by
  induction w generalizing g alive pos with
  | nil =>
      rw [reads_nil, if_pos (.inr (.inl rfl)), scanned]
      cases g
      simp only at h
      simp [h, Nat.mod_eq_of_lt hpos]
  | cons b w ih =>
      rw [reads_cons]
      by_cases hzero : matching (props.map Prod.fst) alive pos b = 0#64 ∧ any = false
      · have hnone : g.content arena b {} = none := by simp [content, h, hlevels, hnode, hzero]
        rw [hnone, scanned, hzero.1, scanned_zero]
        simp [hzero.2]
      · have hsome : g.content arena b {} = some { g with
            val := .keyScan (matching (props.map Prod.fst) alive pos b) (nextPos pos) any } := by
          simp only [content, h, hlevels, hnode, Bool.false_eq_true, if_false, if_neg hzero]
        rw [hsome, Option.bind_some, ih (by simpa using hlevels) (nextPos_lt pos) rfl, scanned]
        have hlen : (nextPos pos + w.length) % 65536 = (pos + (b :: w).length) % 65536 := by
          rw [nextPos, Nat.mod_add_mod, List.length_cons]
          congr 1
          omega
        rw [hlen]
        cases any with
        | true => simp
        | false =>
            have hne : matching (props.map Prod.fst) alive pos b ≠ 0#64 := fun h => hzero ⟨h, rfl⟩
            cases w with
            | nil => simp [scanned, hne]
            | cons c w => simp

/-- When an enum scan may end. -/
theorem scalarMayEnd_enum {node : NodeId} {literals : List (List UInt8)} {alive : BitVec 64} {pos : Nat}
    (hnode : arena.node node = .enum literals) (i : Bool) (b : UInt8) :
    scalarMayEnd arena (.enumScan node alive pos) i b = true ↔
      ∃ j l, literals[j]? = some l ∧ alive.getLsbD j = true ∧
        if i then l[pos]? = some b ∧ l.length = pos + 1 else l.length = pos := by
  simp only [scalarMayEnd, hnode, List.any_eq_true, Prod.exists, List.mem_zipIdx_iff_getElem?]
  constructor
  · rintro ⟨l, j, hl, h⟩
    refine ⟨j, l, hl, ?_⟩
    cases i <;> simpa using h
  · rintro ⟨j, l, hl, h⟩
    refine ⟨l, j, hl, ?_⟩
    cases i <;> simpa using h

/-! ## Enum scalars -/

/-- The literals that agree with the first byte `b` and the content `w`. -/
def Agrees (b : UInt8) (w : List UInt8) (l : List UInt8) : Prop :=
  l[0]? = some b ∧ ∀ k (hk : k < w.length), l[(1 + k) % 65536]? = some w[k]

theorem enter_enum {g : GuideState} {literals : List (List UInt8)} {b : UInt8}
    (hb : b ≠ 0x7B ∧ b ≠ 0x5B) (hnode : arena.node (g.expected arena root) = .enum literals) :
    g.enter arena root b =
      if starting literals b = 0#64 then none
      else some { g with val := .enumScan (g.expected arena root) (starting literals b) 1 } := by
  simp only [enter, enterValue, startScalar, hnode, hb, or_self, if_false]
  split <;> rfl

/-- After a first byte and content under an enum, the alive literals are those that agree. -/
theorem enum_content {g g₂ : GuideState} {literals : List (List UInt8)} {b : UInt8} {w : List UInt8}
    (hb : b ≠ 0x7B ∧ b ≠ 0x5B) (hnode : arena.node (g.expected arena root) = .enum literals)
    (h : (g.enter arena root b).bind (fun g => g.reads arena w) = some g₂) :
    ∃ alive : BitVec 64, alive ≠ 0#64 ∧
      g₂ = { g with val := .enumScan (g.expected arena root) alive ((1 + w.length) % 65536) } ∧
      ∀ j < 64, alive.getLsbD j = true ↔ ∃ l, literals[j]? = some l ∧ Agrees b w l := by
  rw [enter_enum hb hnode] at h
  split at h
  · cases h
  next hzero =>
    rw [Option.bind_some, reads_enumScan hnode (show 1 < 65536 by decide) rfl] at h
    split at h
    next halive =>
      cases h
      refine ⟨_, ?_, rfl, ?_⟩
      · rcases halive with rfl | halive
        · exact hzero
        · exact halive
      · intro j hj
        rw [getLsbD_scanned_iff w hj (show 1 < 65536 by decide), starting, Mask.getLsbD_collect_iff hj]
        simp only [beq_iff_eq, List.head?_eq_getElem?]
        constructor
        · rintro ⟨⟨l, hl, hhead⟩, hall⟩
          refine ⟨l, hl, hhead, fun k hk => ?_⟩
          obtain ⟨s, hs, hk'⟩ := hall k hk
          rw [hl] at hs
          cases hs
          exact hk'
        · rintro ⟨l, hl, hhead, hall⟩
          exact ⟨⟨l, hl, hhead⟩, fun k hk => ⟨l, hl, hall k hk⟩⟩
    · cases h

/-- The position wraps only past 2¹⁶ bytes, so a literal that ends on time is the bytes read. -/
theorem eq_of_agrees {b c : UInt8} {w l : List UInt8} (h : Agrees b w l)
    (hcut : ∀ k : Nat, ¬ (w[k]? = some c ∧ w[k + 1]? = some b))
    (hlast : l[(1 + w.length) % 65536]? = some c) (hlen : l.length = (1 + w.length) % 65536 + 1) :
    l = b :: (w ++ [c]) := by
  obtain ⟨hhead, hall⟩ := h
  by_cases hshort : 1 + w.length < 65536
  · rw [Nat.mod_eq_of_lt hshort] at hlast hlen
    refine List.ext_getElem? fun i => ?_
    cases i with
    | zero => simpa using hhead
    | succ i =>
        rw [List.getElem?_cons_succ]
        rcases Nat.lt_trichotomy i w.length with hi | rfl | hi
        · have := hall i hi
          rw [Nat.mod_eq_of_lt (by omega), Nat.add_comm] at this
          rw [this, List.getElem?_append_left hi, List.getElem?_eq_getElem hi]
        · rw [Nat.add_comm, hlast]
          simp
        · rw [List.getElem?_eq_none (by omega), List.getElem?_eq_none (by simp; omega)]
  · exfalso
    have h₁ := hall 65534 (by omega)
    have hge : 65535 < l.length := by
      by_contra hge
      rw [List.getElem?_eq_none (by omega)] at h₁
      cases h₁
    have hpos : (1 + w.length) % 65536 = 65535 := by
      have := Nat.mod_lt (1 + w.length) (show 0 < 65536 by decide)
      omega
    have hlong : 65535 < w.length := by omega
    have h₂ := hall 65535 hlong
    rw [hpos] at hlast
    refine hcut 65534 ⟨?_, ?_⟩
    · rw [List.getElem?_eq_getElem (by omega), ← h₁, ← hlast]
    · rw [List.getElem?_eq_getElem hlong, ← h₂, ← hhead]

theorem eq_of_agrees_number {b : UInt8} {w l : List UInt8} (h : Agrees b w l)
    (hlen : l.length = (1 + w.length) % 65536) : l = b :: w := by
  obtain ⟨hhead, hall⟩ := h
  have hshort : 1 + w.length < 65536 := by
    by_contra hlong
    have h₁ := hall 65534 (by omega)
    have hpos := Nat.mod_lt (1 + w.length) (show 0 < 65536 by decide)
    rw [List.getElem?_eq_none (by omega)] at h₁
    cases h₁
  rw [Nat.mod_eq_of_lt hshort] at hlen
  refine List.ext_getElem? fun i => ?_
  cases i with
  | zero => simpa using hhead
  | succ i =>
      rw [List.getElem?_cons_succ]
      by_cases hi : i < w.length
      · have := hall i hi
        rw [Nat.mod_eq_of_lt (by omega), Nat.add_comm] at this
        rw [this, List.getElem?_eq_getElem hi]
      · rw [List.getElem?_eq_none (by omega), List.getElem?_eq_none (by omega)]

/-- A closed scalar that passes an enum is one of its literals. -/
theorem closed_enum_mem {g g' : GuideState} {literals : List (List UInt8)} {b c : UInt8}
    {w : List UInt8} (hb : b ≠ 0x7B ∧ b ≠ 0x5B)
    (hnode : arena.node (g.expected arena root) = .enum literals)
    (hcut : ∀ k : Nat, ¬ (w[k]? = some c ∧ w[k + 1]? = some b))
    (h : g.closedGuide arena root (b :: (w ++ [c])) = some g') : b :: (w ++ [c]) ∈ literals := by
  rw [closedGuide, List.dropLast_concat, ← Option.bind_assoc] at h
  obtain ⟨g₂, hcontent, hfin⟩ := Option.bind_eq_some_iff.1 h
  obtain ⟨alive, -, rfl, halive⟩ := enum_content hb hnode hcontent
  unfold finishScalar at hfin
  split at hfin
  next hend =>
    obtain ⟨j, l, hl, hbit, hfit⟩ := (scalarMayEnd_enum hnode true _).1 hend
    obtain ⟨l', hl', hagree⟩ := (halive j (BitVec.lt_of_getLsbD hbit)).1 hbit
    rw [hl] at hl'
    cases hl'
    simp only [if_true, List.getLastD_concat] at hfit
    rw [← eq_of_agrees hagree hcut hfit.1 hfit.2]
    exact List.mem_of_getElem? hl
  · cases hfin

/-- A settled number that passes an enum is one of its literals. -/
theorem number_enum_mem {g g' : GuideState} {literals : List (List UInt8)} {b : UInt8}
    {w : List UInt8} (hb : b ≠ 0x7B ∧ b ≠ 0x5B)
    (hnode : arena.node (g.expected arena root) = .enum literals)
    (h : (g.numberGuide arena root (b :: w)).bind (fun g => g.settle arena true) = some g') :
    b :: w ∈ literals := by
  obtain ⟨g₂, hcontent, hfin⟩ := Option.bind_eq_some_iff.1 h
  obtain ⟨alive, -, rfl, halive⟩ := enum_content hb hnode hcontent
  simp only [settle, if_true, finishScalar] at hfin
  split at hfin
  next hend =>
    obtain ⟨j, l, hl, hbit, hfit⟩ := (scalarMayEnd_enum hnode false _).1 hend
    obtain ⟨l', hl', hagree⟩ := (halive j (BitVec.lt_of_getLsbD hbit)).1 hbit
    rw [hl] at hl'
    cases hl'
    rw [← eq_of_agrees_number hagree (by simpa using hfit)]
    exact List.mem_of_getElem? hl
  · cases hfin

theorem number_head (n : Number) : ∃ b w, n.print = b :: w ∧ (b = 0x2D ∨ (0x30 ≤ b ∧ b ≤ 0x39)) := by
  obtain ⟨b, w, s, hprint, hs, -⟩ := run_number n
  refine ⟨b, w, hprint, ?_⟩
  rcases JsonMachine.numStart_byte hs with ⟨rfl, -⟩ | ⟨rfl, -⟩ | ⟨hb, -⟩
  · exact .inl rfl
  · exact .inr (by decide)
  · grind

/-- A number literal is shorter than the walker's position can count. -/
theorem literal_short (hwf : arena.Wf) {id : NodeId} {literals : List (List UInt8)}
    (hnode : arena.node id = .enum literals) {l : List UInt8} (hl : l ∈ literals) {b : UInt8}
    (hhead : l[0]? = some b) (hb : b = 0x2D ∨ (0x30 ≤ b ∧ b ≤ 0x39)) : l.length < 32 := by
  have hlits := hwf.node_wf id
  rw [hnode] at hlits
  obtain ⟨v, hv, rfl, hnum⟩ := hlits.2.2 l hl
  cases v with
  | num n => exact hnum rfl
  | lit l =>
      cases l <;> cases hhead <;> exact absurd hb (by decide)
  | str s =>
      cases hhead
      exact absurd hb (by decide)
  | _ => cases hv

/-- The start of a number under an enum starts a literal. -/
theorem number_prefix (hwf : arena.Wf) {g g' : GuideState} {b : UInt8} {w : List UInt8}
    {literals : List (List UInt8)} (hb : b = 0x2D ∨ (0x30 ≤ b ∧ b ≤ 0x39))
    (hnode : arena.node (g.expected arena root) = .enum literals)
    (h : g.numberGuide arena root (b :: w) = some g') : ∃ l ∈ literals, b :: w <+: l := by
  have hne : b ≠ 0x7B ∧ b ≠ 0x5B := by grind
  obtain ⟨alive, halive, -, hbits⟩ := enum_content hne hnode h
  obtain ⟨j, hj, hbit⟩ := Mask.ne_zero_iff.1 halive
  obtain ⟨l, hl, hhead, hall⟩ := (hbits j hj).1 hbit
  have hmem := List.mem_of_getElem? hl
  have hshort := literal_short hwf hnode hmem hhead hb
  have hw : w.length ≤ 31 := by
    by_contra hlong
    have := hall 31 (by omega)
    rw [List.getElem?_eq_none (by omega)] at this
    cases this
  refine ⟨l, hmem, List.prefix_iff_getElem?.2 fun i hi => ?_⟩
  cases i with
  | zero => exact hhead
  | succ i =>
      have hi' : i < w.length := by simpa using hi
      have := hall i hi'
      rw [Nat.mod_eq_of_lt (by omega), Nat.add_comm] at this
      exact this

/-- What starts a literal is let through, and the literal stays alive. -/
theorem enum_reads (hwf : arena.Wf) {g : GuideState} {literals : List (List UInt8)} {b : UInt8}
    {w l : List UInt8} (hb : b ≠ 0x7B ∧ b ≠ 0x5B)
    (hnode : arena.node (g.expected arena root) = .enum literals) (hl : l ∈ literals)
    (hpre : b :: w <+: l) (hlen : w.length < 65536) :
    ∃ alive j, literals[j]? = some l ∧ alive.getLsbD j = true ∧
      (g.enter arena root b).bind (fun g => g.reads arena w) =
        some { g with val := .enumScan (g.expected arena root) alive ((1 + w.length) % 65536) } := by
  have hget := List.prefix_iff_getElem?.1 hpre
  have hlits := hwf.node_wf (g.expected arena root)
  rw [hnode] at hlits
  obtain ⟨j, hj⟩ := List.mem_iff_getElem?.1 hl
  have hj64 : j < 64 := lt_of_lt_of_le (List.getElem?_eq_some_iff.1 hj).1 hlits.2.1
  have hhead : l[0]? = some b := hget 0 (by simp)
  have hstart : (starting literals b).getLsbD j = true := by
    rw [starting, Mask.getLsbD_collect_iff hj64]
    exact ⟨l, hj, by simpa [List.head?_eq_getElem?] using hhead⟩
  have hscan : (scanned literals (starting literals b) 1 w).getLsbD j = true := by
    refine (getLsbD_scanned_iff w hj64 (by decide)).2 ⟨hstart, fun k hk => ⟨l, hj, ?_⟩⟩
    rw [Nat.mod_eq_of_lt (by omega), Nat.add_comm]
    exact hget (k + 1) (by simpa using hk)
  refine ⟨_, j, hj, hscan, ?_⟩
  rw [enter_enum hb hnode, if_neg (Mask.ne_zero_iff.2 ⟨j, hj64, hstart⟩), Option.bind_some,
    reads_enumScan hnode (by decide) rfl, if_pos (.inr (Mask.ne_zero_iff.2 ⟨j, hj64, hscan⟩))]

/-- A number that starts a literal is let through. -/
theorem numberGuide_of_prefix (hwf : arena.Wf) {g : GuideState} {n : Number}
    {literals : List (List UInt8)} (hnode : arena.node (g.expected arena root) = .enum literals)
    {l : List UInt8} (hl : l ∈ literals) (hpre : n.print <+: l) :
    ∃ g', g.numberGuide arena root n.print = some g' := by
  obtain ⟨b, w, hprint, hb⟩ := number_head n
  have hne : b ≠ 0x7B ∧ b ≠ 0x5B := by grind
  rw [hprint] at hpre ⊢
  have hhead : l[0]? = some b := List.prefix_iff_getElem?.1 hpre 0 (by simp)
  have hshort := literal_short hwf hnode hl hhead hb
  have hlen := hpre.length_le
  rw [List.length_cons] at hlen
  obtain ⟨alive, j, -, -, hreads⟩ := enum_reads hwf hne hnode hl hpre (by omega)
  exact ⟨_, hreads⟩

/-- A literal is let through to its end. -/
theorem closed_of_mem (hwf : arena.Wf) {g : GuideState} {literals : List (List UInt8)} {b c : UInt8}
    {w : List UInt8} (hb : b ≠ 0x7B ∧ b ≠ 0x5B)
    (hnode : arena.node (g.expected arena root) = .enum literals) (hl : b :: (w ++ [c]) ∈ literals)
    (hlen : (b :: (w ++ [c])).length ≤ 65536) :
    ∃ g', g.closedGuide arena root (b :: (w ++ [c])) = some g' := by
  simp only [List.length_cons, List.length_append, List.length_nil] at hlen
  obtain ⟨alive, j, hj, hbit, hreads⟩ :=
    enum_reads hwf hb hnode hl ⟨[c], by simp⟩ (show w.length < 65536 by omega)
  have hend : scalarMayEnd arena (.enumScan (g.expected arena root) alive ((1 + w.length) % 65536)) true c =
      true := by
    refine (scalarMayEnd_enum hnode true c).2 ⟨j, _, hj, hbit, ?_⟩
    rw [Nat.mod_eq_of_lt (by omega)]
    simp [Nat.add_comm 1]
  rw [closedGuide, List.dropLast_concat, List.getLastD_concat, ← Option.bind_assoc, hreads,
    Option.bind_some, finishScalar, if_pos hend]
  exact ⟨_, rfl⟩

/-- A number literal is let through and may end. -/
theorem number_of_mem (hwf : arena.Wf) {g : GuideState} {literals : List (List UInt8)} {n : Number}
    (hnode : arena.node (g.expected arena root) = .enum literals) (hl : n.print ∈ literals) :
    ∃ g', valueGuide arena root (.num n) g = some g' := by
  obtain ⟨b, w, hprint, hb⟩ := number_head n
  have hne : b ≠ 0x7B ∧ b ≠ 0x5B := by grind
  rw [valueGuide]
  rw [hprint] at hl ⊢
  have hshort := literal_short hwf hnode hl (by simp) hb
  rw [List.length_cons] at hshort
  obtain ⟨alive, j, hj, hbit, hreads⟩ :=
    enum_reads hwf hne hnode hl List.prefix_rfl (show w.length < 65536 by omega)
  have hend : scalarMayEnd arena (.enumScan (g.expected arena root) alive ((1 + w.length) % 65536)) false 0 =
      true := by
    refine (scalarMayEnd_enum hnode false 0).2 ⟨j, _, hj, hbit, ?_⟩
    rw [Nat.mod_eq_of_lt (by omega)]
    simp [Nat.add_comm 1]
  rw [numberGuide, hreads, Option.bind_some, settle, if_pos rfl, finishScalar, if_pos hend]
  exact ⟨_, rfl⟩

/-- No two quotation marks stand next to each other inside a string. -/
theorem body_no_quotes (s : Str) :
    (Str.body s)[0]? ≠ some 0x22 ∧
      ∀ k : Nat, ¬ ((Str.body s)[k]? = some 0x22 ∧ (Str.body s)[k + 1]? = some 0x22) := by
  induction s with
  | nil => simp [Str.body]
  | cons c s ih =>
      obtain ⟨hhead, hpair⟩ := ih
      have hbody : Str.body (c :: s) = c.print ++ Str.body s := rfl
      rw [hbody]
      cases c with
      | plain b h =>
          have hb : b ≠ 0x22 := by
            simp only [isUnescaped, Bool.and_eq_true, bne_iff_ne] at h
            exact h.1.2
          refine ⟨by simpa [JsonText.Char.print] using hb, fun k => ?_⟩
          cases k with
          | zero => simp [JsonText.Char.print, hb]
          | succ k => exact hpair k
      | esc b h =>
          refine ⟨by simp [JsonText.Char.print], fun k => ?_⟩
          rcases k with _ | _ | k
          · simp [JsonText.Char.print]
          · simpa [JsonText.Char.print] using fun _ => hhead
          · exact hpair k
      | unicode h₁ h₂ h₃ h₄ ok =>
          have hne : ∀ {x : UInt8}, isHex x → x ≠ 0x22 := by
            rintro x hx rfl
            cases hx
          obtain ⟨ok₁, ok₂, ok₃, ok₄⟩ := ok
          refine ⟨by simp [JsonText.Char.print], fun k => ?_⟩
          rcases k with _ | _ | _ | _ | _ | _ | k
          · simp [JsonText.Char.print]
          · simp [JsonText.Char.print]
          · simp [JsonText.Char.print, hne ok₁]
          · simp [JsonText.Char.print, hne ok₂]
          · simp [JsonText.Char.print, hne ok₃]
          · simp [JsonText.Char.print, hne ok₄]
          · exact hpair k

end GuideState

/-! ## Keys -/

/-- Property `i` is spelled `w`, can be matched and has not been emitted. -/
def Names (props : List (List UInt8 × NodeId)) (emitted : BitVec 64) (w : List UInt8) (i : Nat) : Prop :=
  emitted.getLsbD i = false ∧ w.length < 65536 ∧ ∃ id, props[i]? = some (w, id)

/-- What `finish_key` looks for is the property the key spells. -/
theorem scanned_key_iff {props : List (List UInt8 × NodeId)} {emitted : BitVec 64} {w : List UInt8}
    {i : Nat} (hi : i < 64) :
    ((scanned (props.map Prod.fst) (Mask.collect props fun i _ => !emitted.getLsbD i) 0 w).getLsbD i =
          true ∧
        (props[i]?).map (fun p => p.1.length) = some (w.length % 65536)) ↔
      Names props emitted w i := by
  rw [getLsbD_scanned_iff w hi (by decide), Mask.getLsbD_collect_iff hi]
  constructor
  · rintro ⟨⟨⟨p, hp, hbit⟩, hall⟩, hlen⟩
    simp only [hp, Option.map_some, Option.some.injEq] at hlen
    have hget : ∀ k (hk : k < w.length), p.1[k % 65536]? = some w[k] := by
      intro k hk
      obtain ⟨s, hs, hk'⟩ := hall k hk
      rw [List.getElem?_map, hp, Option.map_some, Option.some.injEq] at hs
      rw [hs, ← hk', Nat.zero_add]
    have hshort : w.length < 65536 := by
      by_contra hlong
      have h := hget 65535 (by omega)
      have := Nat.mod_lt w.length (show 0 < 65536 by decide)
      rw [List.getElem?_eq_none (by omega)] at h
      cases h
    rw [Nat.mod_eq_of_lt hshort] at hlen
    have hw : p.1 = w := by
      refine List.ext_getElem? fun k => ?_
      by_cases hk : k < w.length
      · have := hget k hk
        rw [Nat.mod_eq_of_lt (by omega)] at this
        rw [this, List.getElem?_eq_getElem hk]
      · rw [List.getElem?_eq_none (by omega), List.getElem?_eq_none (by omega)]
    exact ⟨by simpa using hbit, hshort, p.2, by rw [hp, ← hw]⟩
  · rintro ⟨hbit, hshort, id, hp⟩
    refine ⟨⟨⟨(w, id), hp, by simpa using hbit⟩, fun k hk => ⟨w, by simp [hp], ?_⟩⟩, ?_⟩
    · rw [Nat.zero_add, Nat.mod_eq_of_lt (by omega), List.getElem?_eq_getElem hk]
    · simp [hp, Nat.mod_eq_of_lt hshort]

namespace GuideState

variable {arena : SchemaArena}

section

variable {g : GuideState} {level : Level} {rest : List Level} {props : List (List UInt8 × NodeId)}
  {required : BitVec 64} {additional : Bool}

theorem hasAvailableKey_eq (hov : g.overflow = 0) (hl : g.levels = level :: rest)
    (hnode : arena.node level.node = .object props required additional) :
    g.hasAvailableKey arena =
      (additional || (List.range props.length).any fun i => !level.emitted.getLsbD i) := by
  simp [hasAvailableKey, hov, hl, hnode]

/-- The guide right before a key ends. -/
theorem reads_startKey (hov : g.overflow = 0) (hl : g.levels = level :: rest)
    (hnode : arena.node level.node = .object props required additional) (w : List UInt8) :
    let alive := scanned (props.map Prod.fst) (Mask.collect props fun i _ => !level.emitted.getLsbD i) 0 w
    (g.startKey arena).reads arena w =
      if additional = true ∨ w = [] ∨ alive ≠ 0#64 then
        some { g with val := .keyScan alive (w.length % 65536) additional }
      else none := by
  have hstart : g.startKey arena = { g with
      val := .keyScan (Mask.collect props fun i _ => !level.emitted.getLsbD i) 0 additional } := by
    simp [startKey, hov, hl, hnode]
  have hscan : (g.startKey arena).val =
      .keyScan (Mask.collect props fun i _ => !level.emitted.getLsbD i) 0 additional := by rw [hstart]
  have hlev : (g.startKey arena).levels = level :: rest := by rw [hstart]; exact hl
  rw [reads_keyScan hlev hnode (by decide) hscan, hstart, Nat.zero_add]

/-- A key that spells a property not yet emitted is taken as that property. -/
theorem keyGuide_declared (hov : g.overflow = 0) (hl : g.levels = level :: rest)
    (hnode : arena.node level.node = .object props required additional) (hsize : props.length ≤ 64)
    (hkeys : (props.map Prod.fst).Nodup) {key : Str} {i : Nat}
    (hname : Names props level.emitted (Str.body key) i) :
    g.keyGuide arena key = some { g with
      levels := { level with emitted := level.emitted ||| (1#64 <<< i), curProp := some i } :: rest
      val := .free } := by
  have hscan := hname
  obtain ⟨hbit, -, id, hp⟩ := hname
  have hi : i < props.length := (List.getElem?_eq_some_iff.1 hp).1
  have havail : g.hasAvailableKey arena = true := by
    rw [hasAvailableKey_eq hov hl hnode, Bool.or_eq_true, List.any_eq_true]
    exact .inr ⟨i, List.mem_range.2 hi, by simp [hbit]⟩
  replace hscan := (scanned_key_iff (show i < 64 by omega)).2 hscan
  have halive := Mask.ne_zero_iff.2 ⟨i, by omega, hscan.1⟩
  rw [keyGuide, if_pos havail, reads_startKey hov hl hnode, if_pos (.inr (.inr halive)), Option.bind_some]
  simp only [finishKey, hl, hnode]
  cases hfind : (List.range props.length).find? _ with
  | none =>
      rw [List.find?_eq_none] at hfind
      exact absurd (by simpa using hscan) (hfind i (List.mem_range.2 hi))
  | some j =>
      have hj := List.find?_some hfind
      have hjlt := List.mem_range.1 (List.mem_of_find?_eq_some hfind)
      simp only [Bool.and_eq_true, beq_iff_eq] at hj
      obtain ⟨-, -, id', hp'⟩ := (scanned_key_iff (show j < 64 by omega)).1 hj
      have hij : i = j := by
        refine (List.nodup_iff_injective_get.1 hkeys).eq_iff (a := ⟨i, by simpa using hi⟩)
          (b := ⟨j, by simpa using hjlt⟩) |>.1 ?_ |> Fin.mk.inj
        rw [List.getElem?_eq_some_iff] at hp hp'
        obtain ⟨_, hp⟩ := hp
        obtain ⟨_, hp'⟩ := hp'
        simp [hp, hp']
      rw [hij]

/-- Any other key is refused, or taken as unknown when unknown keys are allowed. -/
theorem keyGuide_unknown (hov : g.overflow = 0) (hl : g.levels = level :: rest)
    (hnode : arena.node level.node = .object props required additional) (hsize : props.length ≤ 64)
    {key : Str} (hname : ∀ i, ¬ Names props level.emitted (Str.body key) i) :
    g.keyGuide arena key =
      if additional then some { g with levels := { level with curProp := none } :: rest, val := .free }
      else none := by
  have hfind : ((List.range props.length).find? fun i =>
      (scanned (props.map Prod.fst) (Mask.collect props fun i _ => !level.emitted.getLsbD i) 0
        (Str.body key)).getLsbD i && ((props[i]?).map fun p => p.1.length) ==
          some ((Str.body key).length % 65536)) = none := by
    rw [List.find?_eq_none]
    intro i hi hscan
    have hi := List.mem_range.1 hi
    simp only [Bool.and_eq_true, beq_iff_eq] at hscan
    exact hname i ((scanned_key_iff (show i < 64 by omega)).1 hscan)
  have hfinish : ∀ alive, alive = scanned (props.map Prod.fst)
        (Mask.collect props fun i _ => !level.emitted.getLsbD i) 0 (Str.body key) →
      finishKey arena { g with val := .keyScan alive ((Str.body key).length % 65536) additional } =
        if additional then some { g with levels := { level with curProp := none } :: rest, val := .free }
        else none := by
    rintro _ rfl
    simp only [finishKey, hl, hnode, hfind]
  rw [keyGuide, hasAvailableKey_eq hov hl hnode, reads_startKey hov hl hnode]
  cases additional with
  | true => simp [hfinish _ rfl]
  | false =>
      split
      · split
        · rw [Option.bind_some, hfinish _ rfl]
        · rfl
      · rfl

end

end GuideState

end Oxydllm.Constrain
