/-
# Oxydllm.Constrain.Stop — the stop gate under a scalar root.

The machine alone decides whether a stop token is allowed, and at the top a number is complete at its
last digit, before any event has made the guide settle its enum scan. The gate is therefore exact for
every root but an enum with a number literal that starts with another number.
-/
import Oxydllm.Constrain.Satisfy
import Mathlib.Data.List.DropRight

namespace Oxydllm.Constrain

open JsonText

/-! ## Trailing whitespace -/

theorem digit_not_space {b : UInt8} (h : isDigit b) : isSpace b = false := by
  simp only [isDigit, Bool.and_eq_true, decide_eq_true_eq] at h
  simp only [isSpace, Bool.or_eq_false_iff, beq_eq_false_iff_ne]
  grind

theorem exists_concat {p : UInt8 → Prop} {b : UInt8} {w : List UInt8} (hb : p b) (hw : ∀ c ∈ w, p c) :
    ∃ u c, b :: w = u ++ [c] ∧ p c := by
  rcases List.eq_nil_or_concat w with rfl | ⟨u, c, rfl⟩
  · exact ⟨[], b, rfl, hb⟩
  · exact ⟨b :: u, c, by simp, hw c (by simp)⟩

theorem digits_last (d : Digits) : ∃ u c, d.print = u ++ [c] ∧ isDigit c :=
  exists_concat d.first_digit d.rest_digit

/-- A number ends with a digit. -/
theorem number_last (n : Number) : ∃ u c, n.print = u ++ [c] ∧ isDigit c := by
  obtain ⟨neg, int, frac, exp⟩ := n
  cases exp with
  | some e =>
      obtain ⟨u, c, hu, hc⟩ := digits_last e.digits
      exact ⟨_, c, by
        rw [Number.print, Number.printExp, Exponent.print, hu, List.append_cons, ← List.append_assoc,
          ← List.append_assoc], hc⟩
  | none =>
      cases frac with
      | some d =>
          obtain ⟨u, c, hu, hc⟩ := digits_last d
          exact ⟨Number.printInt neg int ++ 0x2E :: u, c, by
            simp [Number.print, Number.printFrac, Number.printExp, hu], hc⟩
      | none =>
          have hint : ∃ u c, int.print = u ++ [c] ∧ isDigit c := by
            cases int with
            | zero => exact ⟨[], 0x30, rfl, rfl⟩
            | lead d rest hd hrest =>
                refine exists_concat (p := fun b => isDigit b) ?_ hrest
                simp only [isDigit19, isDigit, Bool.and_eq_true, decide_eq_true_eq] at hd ⊢
                grind
          obtain ⟨u, c, hu, hc⟩ := hint
          exact ⟨(if neg then [0x2D] else []) ++ u, c, by
            simp [Number.print, Number.printInt, Number.printFrac, Number.printExp, hu], hc⟩

theorem scalar_last {v : Value} (h : v.isScalar) : ∃ u c, v.print = u ++ [c] ∧ isSpace c = false := by
  cases v with
  | lit l =>
      cases l
      · exact ⟨[0x74, 0x72, 0x75], 0x65, rfl, rfl⟩
      · exact ⟨[0x66, 0x61, 0x6C, 0x73], 0x65, rfl, rfl⟩
      · exact ⟨[0x6E, 0x75, 0x6C], 0x6C, rfl, rfl⟩
  | num n =>
      obtain ⟨u, c, hu, hc⟩ := number_last n
      exact ⟨u, c, hu, digit_not_space hc⟩
  | str s => exact ⟨0x22 :: Str.body s, 0x22, rfl, rfl⟩
  | _ => cases h

/-- Trimmed of trailing whitespace, a scalar and the gap behind it are the scalar. -/
theorem trim_scalar {v : Value} (h : v.isScalar) (g : Gap) :
    (v.print ++ g.bytes).rdropWhile isSpace = v.print := by
  obtain ⟨u, c, hu, hc⟩ := scalar_last h
  have hspace := g.space
  generalize g.bytes = bs at hspace
  induction bs using List.reverseRecOn with
  | nil => rw [List.append_nil, hu, List.rdropWhile_concat_neg _ _ _ (by simp [hc])]
  | append_singleton bs b ih =>
      rw [← List.append_assoc, List.rdropWhile_concat_pos _ _ _ (hspace b (by simp))]
      exact ih fun c hc => hspace c (by simp [hc])

/-! ## Scalar roots -/

/-- A node that takes scalars only. -/
def ScalarNode : SchemaNode → Prop
  | .str => True
  | .number _ => True
  | .boolean => True
  | .null => True
  | .enum _ => True
  | _ => False

/-- Every number that starts a literal is a literal itself. -/
def NumberClosed (literals : List (List UInt8)) : Prop :=
  ∀ n : Number, ∀ l ∈ literals, n.print <+: l → n.print ∈ literals

namespace GuideState

variable {arena : SchemaArena} {root : NodeId}

/-- Under a scalar node only scalars are let through. -/
theorem scalar_of_enter (hwf : arena.Wf) {g g' : GuideState} {b : UInt8} (hb : b = 0x7B ∨ b = 0x5B)
    (hnode : ScalarNode (arena.node (g.expected arena root))) : g.enter arena root b ≠ some g' := by
  intro he
  obtain ⟨-, h | ⟨-, _, _, _, h⟩ | ⟨-, _, h⟩⟩ := startScalar_open hwf hb (enterValue_val he) <;>
    rw [h] at hnode <;> exact hnode

end GuideState

open GuideState in
/-- What the guide has seen of a text under a scalar root: a scalar that fits, or a number still open
that starts a literal. -/
theorem text_fits {arena : SchemaArena} (hwf : arena.Wf) (hnode : ScalarNode (arena.node arena.root))
    {t : Text} {g : GuideState} (hobs : GuideState.new.observe arena arena.root (textTrace t) = some g) :
    t.value.isScalar ∧ (Fits (arena.node arena.root) t.value ∨
      ∃ (n : Number) (literals : List (List UInt8)), t.value = .num n ∧
        arena.node arena.root = .enum literals ∧ ∃ l ∈ literals, n.print <+: l) := by
  have hexp : GuideState.new.expected arena arena.root = arena.root := rfl
  have hno : ∀ {b : UInt8}, b = 0x7B ∨ b = 0x5B → ∀ {g' : GuideState}
      {f : GuideState → Option GuideState}, (GuideState.new.enter arena arena.root b).bind f = some g' → False := by
    intro b hb g' f h
    obtain ⟨g₁, he, -⟩ := Option.bind_eq_some_iff.1 h
    exact scalar_of_enter hwf hb (hexp ▸ hnode) he
  obtain ⟨hclosed, g₁, hvalue⟩ := JsonConstraint.observe_text hwf hobs
  cases hv : t.value with
  | lit l =>
      rw [hv] at hclosed
      obtain ⟨g', hg'⟩ := hclosed (.inl rfl)
      exact ⟨rfl, .inl (hexp ▸ lit_fits l hg')⟩
  | str s =>
      rw [hv] at hclosed
      obtain ⟨g', hg'⟩ := hclosed (.inl rfl)
      exact ⟨rfl, .inl (hexp ▸ str_fits s hg')⟩
  | num n =>
      refine ⟨rfl, ?_⟩
      rw [hv, valueTrace, observe_number _ _ (by obtain ⟨b, w, hprint, -⟩ := number_head n; simp [hprint])]
        at hvalue
      rcases number_fits n hvalue with hfits | ⟨literals, hlits⟩
      · exact .inl hfits
      · obtain ⟨b, w, hprint, hb⟩ := number_head n
        rw [hprint] at hvalue
        exact .inr ⟨n, literals, rfl, hlits, hprint ▸ number_prefix hwf hb hlits hvalue⟩
  | _ =>
      rw [hv] at hclosed
      obtain ⟨g', hg'⟩ := hclosed (.inl rfl)
      first
      | exact (hno (.inr rfl) hg').elim
      | exact (hno (.inl rfl) hg').elim

/-- A number that starts a literal is a run of one token, and the stop token may follow it. -/
theorem number_run {arena : SchemaArena} (hwf : arena.Wf) {literals : List (List UInt8)}
    (hnode : arena.node arena.root = .enum literals) {n : Number} {l : List UInt8} (hl : l ∈ literals)
    (hpre : n.print <+: l) :
    JsonConstraint.Run (.new (.single n.print) .value arena) 2 [0]
        (JsonConstraint.advance (.new (.single n.print) .value arena) 0) ∧
      ((JsonConstraint.advance (.new (.single n.print) .value arena) 0).allowed 2)[1]? = some true ∧
      (TokenByteTable.single n.print).emitted [0] = n.print := by
  have hexp : GuideState.new.expected arena arena.root = arena.root := rfl
  obtain ⟨g, hg⟩ := GuideState.numberGuide_of_prefix hwf (hexp ▸ hnode) hl hpre
  obtain ⟨b, w, hprint, -⟩ := GuideState.number_head n
  have hne : n.print ≠ [] := by simp [hprint]
  let t : Text := ⟨.empty, .num n, .empty⟩
  have ht : t.print = n.print := by simp [t, Text.print, Gap.empty, Value.print]
  have hread : t.All readable := by simp [t, Text.All, Value.All, readable, gapCost, Gap.empty]
  have hobs : GuideState.new.observe arena arena.root (textTrace t) = some g := by
    have htrace : textTrace t = numTrace n.print := by
      simp [t, textTrace, Gap.empty, gapTrace, valueTrace]
    rw [htrace, GuideState.observe_number _ _ hne, hg]
  obtain ⟨m, hwalk, hacc⟩ : ∃ m, (JsonConstraint.new (.single n.print) .value arena).walk (.new .value)
      .new t.print = some (m, g) ∧ m.accepting :=
    JsonConstraint.walk_text hread (by simp [t, Value.depth]) (by simp) hobs
  rw [ht] at hwalk
  exact JsonConstraint.run_single hne hwalk hacc

/-- The gate under a scalar root is exact when the root's literals are closed under starting numbers, and
for no other root: a silent stop token is allowed only when what has been emitted, trimmed of trailing
whitespace, is a value of the root. -/
theorem stop_gate_iff (schema : Json) (hschema : schema.Wf)
    (hroot : ScalarNode ((SchemaArena.compile schema).node (SchemaArena.compile schema).root)) :
    (∀ (table : TokenByteTable) (vocabSize : Nat) (ts : List Nat) (c : JsonConstraint) (stop : Nat),
        JsonConstraint.Run (.new table .value (.compile schema)) vocabSize ts c → table.Silent stop →
        (c.allowed vocabSize)[stop]? = some true →
        (∀ b, (table.emitted ts).head? = some b → isSpace b = false) →
        ∃ v : Value, v.print = (table.emitted ts).rdropWhile isSpace ∧
          Fits ((SchemaArena.compile schema).node (SchemaArena.compile schema).root) v) ↔
      ∀ literals, (SchemaArena.compile schema).node (SchemaArena.compile schema).root = .enum literals →
        NumberClosed literals := by
  have hwf := SchemaArena.compile_wf hschema
  constructor
  · intro hgate literals hnode n l hl hpre
    obtain ⟨hrun, hok, hemitted⟩ := number_run hwf hnode hl hpre
    obtain ⟨b, w, hprint, hb⟩ := GuideState.number_head n
    have hhead : ∀ b, ((TokenByteTable.single n.print).emitted [0]).head? = some b → isSpace b = false := by
      rintro c hc
      rw [hemitted, hprint] at hc
      cases hc
      simp only [isSpace, Bool.or_eq_false_iff, beq_eq_false_iff_ne]
      grind
    obtain ⟨v, hv, hfits⟩ := hgate _ _ _ _ 1 hrun rfl hok hhead
    have htrim := trim_scalar (v := .num n) rfl .empty
    simp only [Gap.empty, List.append_nil, Value.print] at htrim
    rw [hemitted, htrim] at hv
    rw [hnode, Fits, hv] at hfits
    exact hfits
  · intro hclosed table vocabSize ts c stop hrun hsilent hok hhead
    have hreached := JsonConstraint.run_reached hrun
    obtain ⟨t, hprint, -⟩ := JsonConstraint.text_of_stop hreached hsilent hok
    rw [← hprint] at hreached hhead ⊢
    obtain ⟨-, hobs⟩ := JsonConstraint.reached_text hreached
    obtain ⟨hscalar, hfits⟩ := text_fits hwf hroot hobs
    have hpre : t.pre.bytes = [] := by
      cases hbs : t.pre.bytes with
      | nil => rfl
      | cons b bs =>
          have hspace := t.pre.space b (by simp [hbs])
          have := hhead b (by simp [Text.print, hbs])
          rw [hspace] at this
          cases this
    refine ⟨t.value, ?_, ?_⟩
    · rw [Text.print, hpre, List.nil_append, trim_scalar hscalar]
    · rcases hfits with hfits | ⟨n, literals, hv, hnode, l, hl, hstarts⟩
      · exact hfits
      · rw [hnode, hv]
        exact hclosed literals hnode n l hl hstarts

/-- `{"enum":[24]}` -/
def twentyFour : Json := .obj [(bytesOf "enum",
  .arr [.num ⟨false, .lead 0x32 [0x34] (by decide) (List.forall_mem_singleton.2 rfl), none, none⟩])]

theorem twentyFour_wf : twentyFour.Wf := by
  refine .obj _ (by decide) ?_
  simp only [List.mem_cons, List.not_mem_nil, or_false, forall_eq]
  refine .arr _ ?_
  simp only [List.mem_cons, List.not_mem_nil, or_false, forall_eq]
  exact .num _ (by decide)

/-- Under `{"enum":[24]}` the stop token is allowed behind `2`. -/
theorem twentyFour_stops_early :
    twentyFour.Wf ∧ ScalarNode ((SchemaArena.compile twentyFour).node (SchemaArena.compile twentyFour).root) ∧
      JsonConstraint.Run (.new (.single [0x32]) .value (.compile twentyFour)) 2 [0]
        (JsonConstraint.advance (.new (.single [0x32]) .value (.compile twentyFour)) 0) ∧
      ((JsonConstraint.advance (.new (.single [0x32]) .value (.compile twentyFour)) 0).allowed 2)[1]? =
        some true ∧
      ¬ ∃ v : Value, v.print = ((TokenByteTable.single [0x32]).emitted [0]).rdropWhile isSpace ∧
        Fits ((SchemaArena.compile twentyFour).node (SchemaArena.compile twentyFour).root) v := by
  refine ⟨twentyFour_wf, trivial, .snoc .nil (by decide +kernel), by decide +kernel, ?_⟩
  rintro ⟨v, hv, hfits⟩
  have hmem : v.print ∈ [[0x32, 0x34]] := hfits
  rw [hv] at hmem
  revert hmem
  decide

/-- `{"type":"boolean"}` -/
def aBoolean : Json := .obj [(bytesOf "type", .str (bytesOf "boolean"))]

theorem aBoolean_wf : aBoolean.Wf := by
  refine .obj _ (by decide) fun m hm => ?_
  rw [List.mem_singleton.1 hm]
  exact .str _

/-- `true` under `{"type":"boolean"}`, which has no literals at all. -/
theorem stop_gate_iff_boolean :
    ∃ v : Value, v.print =
        ((TokenByteTable.single (Literal.print .true)).emitted [0]).rdropWhile isSpace ∧
      Fits ((SchemaArena.compile aBoolean).node (SchemaArena.compile aBoolean).root) v :=
  (stop_gate_iff aBoolean aBoolean_wf trivial).2 (fun literals h => by cases h)
    (.single (Literal.print .true)) 2 [0]
    (JsonConstraint.advance (.new (.single (Literal.print .true)) .value (.compile aBoolean)) 0) 1
    (.snoc .nil (by decide +kernel)) rfl (by decide +kernel) (fun b hb => by cases hb; rfl)

end Oxydllm.Constrain
