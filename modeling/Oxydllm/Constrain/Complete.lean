/-
# Oxydllm.Constrain.Complete — which JSON texts the automaton reads to acceptance.

The automaton is meant to read every JSON text within the depth cap whose whitespace runs stay within
`MAX_WHITESPACE_RUN`. It reads all of them but three kinds: whitespace inside an empty array, a run of
more than twenty-two spaces inside a string, and a run of exactly twenty-two bytes directly behind a
number. `accepting_iff_roomy` is the exact statement.
-/
import Oxydllm.Constrain.Trace

namespace Oxydllm.Constrain

open JsonText

/-! ## Whole texts -/

def textTrace (t : Text) : List Obs :=
  gapTrace false t.pre.bytes ++ (valueTrace t.value ++ gapTrace t.value.isNum t.post.bytes)

/-- A text that may stand under `mode` is read exactly when its free parts are readable and it stays
within the depth cap. -/
theorem text_piece {mode : JsonMode} (t : Text) (hroot : RootOk mode [] t.value) :
    Piece mode ⟨[], .value, 0⟩ t.print (t.All readable ∧ t.value.depth ≤ maxDepth) (textTrace t)
      (tailView [] t.value t.post) := by
  have hpre := (gap_piece mode [] S.gap_value 0 t.pre.bytes t.pre.space).congr (gapCost_false t.pre)
  have hval := value_piece mode t.value [] .value (.inl rfl) (by decide) (0 + t.pre.bytes.length) hroot
  have := hpre.append (hval.append (tailGap_piece t.value t.post))
  simp only [Text.print, List.append_assoc]
  refine this.congr ?_
  simp only [Text.All, List.length_nil, Nat.add_zero]
  tauto

/-- At the top a number still open and a finished value both count as complete. -/
theorem accepting_of_tail {m : JsonMachine} {v : Value} {g : Gap} (h : m.view = tailView [] v g) :
    m.accepting := by
  have hdepth : m.frames = [] → m.depth = 0 := (JsonMachine.frames_eq_nil m).1
  rcases tailView_cases [] v g with ⟨n, hn, hv, -⟩ | ⟨r, hv, -⟩
  · rw [hv] at h
    simp only [JsonMachine.view, View.mk.injEq] at h
    simp [JsonMachine.accepting, JsonMachine.numberCompletesTop, h.2.1, hdepth h.1, hn]
  · rw [hv] at h
    simp only [JsonMachine.view, View.mk.injEq, after_nil] at h
    simp [JsonMachine.accepting, h.2.1]

theorem accepting_iff_readable {mode : JsonMode} (t : Text) (hroot : RootOk mode [] t.value) :
    (∃ m, (JsonMachine.new mode).run mode t.print = some m ∧ m.accepting) ↔
      t.All readable ∧ t.value.depth ≤ maxDepth := by
  have hnew : (JsonMachine.new mode).view = ⟨[], .value, 0⟩ := rfl
  constructor
  · rintro ⟨m, hrun, -⟩
    rw [JsonMachine.run_eq_trace] at hrun
    obtain ⟨p, ht, -⟩ := Option.map_eq_some_iff.1 hrun
    exact (text_piece t hroot).needs _ p hnew ht
  · intro h
    obtain ⟨m, ht, hm⟩ := (text_piece t hroot).reads h _ hnew
    exact ⟨m, by rw [JsonMachine.run_eq_trace, ht]; rfl, accepting_of_tail hm⟩

/-! ## What readable means -/

/-- Runs of whitespace between tokens stay within `MAX_WHITESPACE_RUN`. -/
def shortGaps : Layout where
  gap _ g := g.bytes.length ≤ maxWhitespaceRun
  hole g := g.bytes.length ≤ maxWhitespaceRun
  str _ := True
  num _ := True

/-- No whitespace in an empty array, no run of more than `MAX_WHITESPACE_RUN` spaces in a string, and
no gap of exactly that length right behind a number. -/
def roomy : Layout where
  gap num g := num = true → g.bytes.length ≠ maxWhitespaceRun
  hole g := g.bytes = []
  str s := ¬ List.replicate (maxWhitespaceRun + 1) 0x20 <:+: Str.body s
  num _ := True

/-- A byte that is not a space cuts the runs of spaces in two. -/
theorem replicate_infix_cut {b : UInt8} (hb : b ≠ 0x20) {n r : Nat} (hr : r < n) (w : List UInt8) :
    List.replicate n 0x20 <:+: List.replicate r 0x20 ++ b :: w ↔ List.replicate n 0x20 <:+: w := by
  have hbegin : ∀ r < n, ¬ List.replicate n (0x20 : UInt8) <+: List.replicate r 0x20 ++ b :: w := by
    intro r hr h
    have hget := h.getElem (i := r) (by simpa using hr)
    rw [List.getElem_append_right (by simp)] at hget
    simp at hget
    exact hb hget.symm
  induction r with
  | zero =>
      rw [List.replicate_zero, List.nil_append, List.infix_cons_iff]
      exact or_iff_right (hbegin 0 hr)
  | succ r ih =>
      have htail := ih (Nat.lt_of_succ_lt hr)
      have hhead := hbegin (r + 1) hr
      rw [List.replicate_succ, List.cons_append] at hhead ⊢
      rw [List.infix_cons_iff, or_iff_right hhead]
      exact htail

theorem spacesFit_iff {r : Nat} (hr : r ≤ maxWhitespaceRun) (w : List UInt8) :
    SpacesFit r w ↔
      ¬ List.replicate (maxWhitespaceRun + 1) 0x20 <:+: List.replicate r 0x20 ++ w := by
  induction w generalizing r with
  | nil =>
      refine iff_of_true trivial fun h => ?_
      have := h.length_le
      simp only [List.length_replicate, List.append_nil] at this
      omega
  | cons b w ih =>
      by_cases hb : b = 0x20
      · subst hb
        have hmove : List.replicate r (0x20 : UInt8) ++ 0x20 :: w = List.replicate (r + 1) 0x20 ++ w := by
          rw [List.replicate_succ', List.append_assoc, List.singleton_append]
        rw [hmove]
        by_cases hlt : r < maxWhitespaceRun
        · simp [SpacesFit, hlt, ih (show r + 1 ≤ maxWhitespaceRun from hlt)]
        · obtain rfl : r = maxWhitespaceRun := by omega
          simp only [SpacesFit, forall_const, Nat.lt_irrefl, false_and, false_iff, not_not]
          exact ⟨[], w, by simp⟩
      · rw [replicate_infix_cut hb (by omega)]
        simpa [SpacesFit, hb] using ih (r := 0) (by omega)

theorem readable_eq : readable = shortGaps.and roomy := by
  have hgap : readable.gap = (shortGaps.and roomy).gap := by
    funext num g
    refine propext ?_
    simp only [readable, shortGaps, roomy, Layout.and, gapCost]
    cases num with
    | false => simp
    | true =>
        by_cases hg : g.bytes = []
        · simp [hg, maxWhitespaceRun]
        · simp only [hg, ne_eq, not_false_eq_true, and_self, if_true, forall_const]
          omega
  have hhole : readable.hole = (shortGaps.and roomy).hole := by
    funext g
    refine propext ⟨fun h => ⟨?_, h⟩, fun h => h.2⟩
    have h' : g.bytes = [] := h
    simp [shortGaps, h']
  have hstr : readable.str = (shortGaps.and roomy).str := by
    funext s
    refine propext ?_
    have := spacesFit_iff (r := 0) (by omega) (Str.body s)
    simpa [readable, shortGaps, roomy, Layout.and] using this
  have hnum : readable.num = (shortGaps.and roomy).num := by
    funext n
    exact propext (iff_of_true trivial ⟨trivial, trivial⟩)
  show Layout.mk readable.gap readable.hole readable.str readable.num = _
  rw [hgap, hhole, hstr, hnum]

/-! ## Completeness -/

/-- `[ ]`, with one space between the brackets. -/
def spacedEmptyArray : Text := ⟨.empty, .emptyArr ⟨[0x20], List.forall_mem_singleton.2 rfl⟩, .empty⟩

/-- The automaton refuses `[ ]`. -/
theorem spacedEmptyArray_refused :
    spacedEmptyArray.value.depth ≤ maxDepth ∧ spacedEmptyArray.All shortGaps ∧
      ¬ ∃ m, (JsonMachine.new .value).run .value spacedEmptyArray.print = some m ∧ m.accepting := by
  refine ⟨by decide, ⟨?_, ?_, ?_⟩, ?_⟩
  · simp [shortGaps, spacedEmptyArray]
  · simp [shortGaps, spacedEmptyArray, Value.All, maxWhitespaceRun]
  · simp [shortGaps, spacedEmptyArray]
  · rintro ⟨m, hrun, -⟩
    have hnone : (JsonMachine.new .value).run .value spacedEmptyArray.print = none := by decide
    rw [hnone] at hrun
    cases hrun

/-- A JSON text within the depth cap, with short gaps and a root its mode allows, is read to
acceptance exactly when it is `roomy`. -/
theorem accepting_iff_roomy (mode : JsonMode) (t : Text) (hdepth : t.value.depth ≤ maxDepth)
    (hgaps : t.All shortGaps) (hroot : mode = .object → t.value.isObject) :
    (∃ m, (JsonMachine.new mode).run mode t.print = some m ∧ m.accepting) ↔ t.All roomy := by
  rw [accepting_iff_readable t fun hm _ => hroot hm, readable_eq, Text.all_and]
  exact ⟨fun h => h.1.2, fun h => ⟨⟨hgaps, h⟩, hdepth⟩⟩

/-- `{"a": 0}` in `Object` mode. -/
theorem accepting_iff_roomy_object :
    let t : Text := ⟨.empty, .obj (.one .empty [.plain 0x61 (by decide)] .empty ⟨[0x20], List.forall_mem_singleton.2 rfl⟩
      (.num ⟨false, .zero, none, none⟩) .empty), .empty⟩
    (∃ m, (JsonMachine.new .object).run .object t.print = some m ∧ m.accepting) ↔ t.All roomy :=
  accepting_iff_roomy .object _ (by decide)
    (by simp [Text.All, shortGaps, Value.All, Members.All, maxWhitespaceRun]) fun _ => rfl

end Oxydllm.Constrain
