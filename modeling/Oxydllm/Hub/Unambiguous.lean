/-
# Oxydllm.Hub.Unambiguous — when the labels tell the variants apart.

The grouping goes by whole stems, and puts every kept file in one variant (`group_spec`). A label is only a run of a
stem's segments (`extract_eq_some_iff`); what stands before it and behind it is left out, so that two stems can have one
label (`sameLabel_iff`). A stem that is nothing but a split suffix is no stem at all. The variants are told apart exactly
where neither happens among the kept files (`unambiguous_iff`).
-/
import Oxydllm.Hub.Variants
import Mathlib.Data.List.Forall2
import Mathlib.Tactic

namespace Oxydllm.Hub.Variants

/-! ## Split suffixes -/

section Split

variable {s k a b : Name}

/-- The name of a shard of the stem `k`. -/
def ShardOf (k name : Name) : Prop :=
  ∃ a b, a.all Char.isDigit = true ∧ b.all Char.isDigit = true ∧
    name = k ++ '-' :: (a ++ '-' :: ("of".toList ++ '-' :: b)) ++ gguf

/-- A stem that is a split suffix, with nothing before it. -/
def BareSplit (s : Name) : Prop :=
  ∃ a b, a.all Char.isDigit = true ∧ b.all Char.isDigit = true ∧ s = a ++ '-' :: ("of".toList ++ '-' :: b)

theorem not_mem_of_digits (h : a.all Char.isDigit = true) : '-' ∉ a :=
  fun hmem => absurd (List.all_eq_true.1 h '-' hmem) (by decide)

theorem splitOn_suffix (ha : a.all Char.isDigit = true) (hb : b.all Char.isDigit = true) :
    (a ++ '-' :: ("of".toList ++ '-' :: b)).splitOn '-' = [a, "of".toList, b] := by
  rw [List.splitOn_append_cons_self_of_not_mem (not_mem_of_digits ha),
    List.splitOn_append_cons_self_of_not_mem (by decide), List.splitOn_eq_singleton (not_mem_of_digits hb)]

theorem stripSplitSuffix_shard (ha : a.all Char.isDigit = true) (hb : b.all Char.isDigit = true) :
    stripSplitSuffix (k ++ '-' :: (a ++ '-' :: ("of".toList ++ '-' :: b))) = some k := by
  have hparts : ((k ++ '-' :: (a ++ '-' :: ("of".toList ++ '-' :: b))).splitOn '-').reverse =
      b :: "of".toList :: a :: (k.splitOn '-').reverse := by
    rw [List.splitOn_append_cons_self, splitOn_suffix ha hb, List.reverse_append]
    rfl
  have hlen : (k ++ '-' :: (a ++ '-' :: ("of".toList ++ '-' :: b))).length =
      k.length + (1 + b.length + 1 + "of".toList.length + 1 + a.length) := by
    simp only [List.length_append, List.length_cons]
    omega
  simp only [stripSplitSuffix, hparts]
  rw [if_pos ⟨trivial, hb, ha⟩, hlen, if_neg (Nat.not_lt.2 (Nat.le_add_left ..)), Nat.add_sub_cancel, List.take_left]

theorem intercalate_append {xs ys : List Name} (hx : xs ≠ []) (hy : ys ≠ []) :
    ['-'].intercalate (xs ++ ys) = ['-'].intercalate xs ++ '-' :: ['-'].intercalate ys := by
  induction xs with
  | nil => exact absurd rfl hx
  | cons x xs ih =>
      cases xs with
      | nil =>
          rw [List.singleton_append, List.intercalate_cons_of_ne_nil hy, List.intercalate_singleton, List.append_assoc]
          rfl
      | cons x' xs =>
          rw [List.cons_append, List.intercalate_cons_of_ne_nil (List.append_ne_nil_of_left_ne_nil (List.cons_ne_nil _ _) _),
            ih (List.cons_ne_nil _ _), List.intercalate_cons_of_ne_nil (List.cons_ne_nil _ _), List.append_assoc,
            List.append_assoc, List.append_assoc]

theorem stripSplitSuffix_eq_none_iff : stripSplitSuffix s = none ↔ BareSplit s := by
  constructor
  · intro h
    have hjoin : ['-'].intercalate (s.splitOn '-') = s := List.intercalate_splitOn '-'
    rw [stripSplitSuffix] at h
    rcases hparts : (s.splitOn '-').reverse with - | ⟨total, - | ⟨word, - | ⟨index, rest⟩⟩⟩
    · rw [hparts] at h; cases h
    · rw [hparts] at h; cases h
    · rw [hparts] at h; cases h
    have hsplit : s.splitOn '-' = rest.reverse ++ [index, word, total] := by
      rw [← List.reverse_reverse (s.splitOn '-'), hparts]
      simp only [List.reverse_cons, List.append_assoc, List.cons_append, List.nil_append]
    rw [hparts] at h
    by_cases hsuffix : word = "of".toList ∧ total.all Char.isDigit = true ∧ index.all Char.isDigit = true
    · obtain ⟨rfl, htotal, hindex⟩ := hsuffix
      have htail : ['-'].intercalate [index, "of".toList, total] = index ++ '-' :: ("of".toList ++ '-' :: total) := by
        simp only [List.intercalate_cons_cons, List.intercalate_singleton, List.append_assoc, List.cons_append,
          List.nil_append]
      rw [hsplit] at hjoin
      cases hrest : rest.reverse with
      | nil =>
          rw [hrest, List.nil_append, htail] at hjoin
          exact ⟨index, total, hindex, htotal, hjoin.symm⟩
      | cons part parts =>
          -- something stands before the number
          rw [hrest, intercalate_append (List.cons_ne_nil _ _) (List.cons_ne_nil _ _), htail] at hjoin
          have hsome := stripSplitSuffix_shard (k := ['-'].intercalate (part :: parts)) hindex htotal
          rw [hjoin, stripSplitSuffix, hparts] at hsome
          cases h.symm.trans hsome
    · simp only [if_neg hsuffix] at h
      cases h
  · rintro ⟨a, b, ha, hb, rfl⟩
    simp only [stripSplitSuffix, splitOn_suffix ha hb, List.reverse_cons, List.reverse_nil, List.nil_append,
      List.cons_append]
    rw [if_pos ⟨trivial, hb, ha⟩, if_pos]
    simp only [List.length_append, List.length_cons]
    omega

end Split

/-! ## The run of segments in a label -/

section Rposition

variable {α : Type} {p : α → Bool} {xs : List α}

theorem rposition_eq_none_iff : rposition p xs = none ↔ ∀ x ∈ xs, p x = false := by
  induction xs with
  | nil => exact ⟨fun _ x hx => absurd hx List.not_mem_nil, fun _ => rfl⟩
  | cons x xs ih =>
      rw [rposition, List.forall_mem_cons]
      cases hrest : rposition p xs with
      | some j =>
          have hsome : ¬ ∀ x ∈ xs, p x = false := by
            intro h
            rw [ih.2 h] at hrest
            cases hrest
          exact ⟨fun h => absurd h (Option.some_ne_none _), fun h => absurd h.2 hsome⟩
      | none =>
          cases hx : p x with
          | true => exact ⟨fun h => absurd h (Option.some_ne_none _), fun h => absurd h.1 Bool.true_eq_false.mp⟩
          | false => exact ⟨fun _ => ⟨rfl, ih.1 hrest⟩, fun _ => rfl⟩

theorem rposition_append {front back : List α} {x : α} (hx : p x = true) (hback : ∀ y ∈ back, p y = false) :
    rposition p (front ++ x :: back) = some front.length := by
  induction front with
  | nil =>
      rw [List.nil_append, rposition, rposition_eq_none_iff.2 hback]
      exact if_pos hx
  | cons y front ih =>
      rw [List.cons_append, rposition, ih]
      rfl

theorem exists_of_rposition {i : Nat} (h : rposition p xs = some i) :
    ∃ front x back, xs = front ++ x :: back ∧ front.length = i ∧ p x = true ∧ ∀ y ∈ back, p y = false := by
  induction xs generalizing i with
  | nil => cases h
  | cons x xs ih =>
      rw [rposition] at h
      cases hrest : rposition p xs with
      | some j =>
          rw [hrest] at h
          obtain ⟨front, y, back, rfl, rfl, hy, hback⟩ := ih hrest
          exact ⟨x :: front, y, back, rfl, Option.some.inj h, hy, hback⟩
      | none =>
          rw [hrest] at h
          obtain ⟨hx, hi⟩ := Option.ite_none_right_eq_some.1 h
          exact ⟨[], x, xs, rfl, Option.some.inj hi, hx, rposition_eq_none_iff.1 hrest⟩

end Rposition

section Runs

variable (casing : Casing)

/-- A segment that opens like a quantization and is not a mere precision. -/
def isQuantOnly (seg : Name) : Bool := isQuantSegment casing seg && !isPrecisionSegment casing seg

/-- A segment that a label goes on over. -/
def inLabel (seg : Name) : Bool := isQuantSegment casing seg || isPrecisionSegment casing seg

/-- The run of segments that is the label: from the last quantization on, or if all of them are precisions from the last
of these, as far as there are quantizations and precisions. -/
def LabelRun (segments run : List Name) : Prop :=
  ∃ front seg tail back, segments = front ++ seg :: (tail ++ back) ∧ run = seg :: tail ∧
    (∀ s ∈ tail, inLabel casing s = true) ∧ (∀ s ∈ back.head?, inLabel casing s = false) ∧
      ((isQuantOnly casing seg = true ∧ ∀ s ∈ tail ++ back, isQuantOnly casing s = false) ∨
        (isQuantSegment casing seg = true ∧ (∀ s ∈ tail ++ back, isQuantSegment casing s = false) ∧
          ∀ s ∈ segments, isQuantOnly casing s = false))

variable {casing} {segments run : List Name} {filename label : Name}

/-- Where the label starts. -/
def labelStart (casing : Casing) (segments : List Name) : Option Nat :=
  rposition (isQuantOnly casing) segments <|> rposition (isQuantSegment casing) segments

theorem isQuantSegment_of_only {seg : Name} (h : isQuantOnly casing seg = true) : isQuantSegment casing seg = true :=
  (Bool.and_eq_true_iff.1 h).1

theorem inLabel_of_quant {seg : Name} (h : isQuantSegment casing seg = true) : inLabel casing seg = true := by
  rw [inLabel, h, Bool.true_or]

theorem labelFrom_eq (front : List Name) {tail back : List Name} {seg : Name} (hseg : isQuantSegment casing seg = true)
    (htail : ∀ s ∈ tail, inLabel casing s = true) (hback : ∀ s ∈ back.head?, inLabel casing s = false) :
    labelFrom casing (front ++ seg :: (tail ++ back)) front.length = seg :: tail := by
  have hrun : ∀ s ∈ seg :: tail, inLabel casing s = true := by
    intro s hs
    rcases List.mem_cons.1 hs with rfl | hs
    · exact inLabel_of_quant hseg
    · exact htail s hs
  rw [labelFrom, List.drop_left, ← List.cons_append]
  show (seg :: tail ++ back).takeWhile (inLabel casing) = seg :: tail
  rw [List.takeWhile_append_of_pos hrun]
  cases back with
  | nil => rw [List.takeWhile_nil, List.append_nil]
  | cons s back => rw [List.takeWhile_cons_of_neg (by rw [hback s rfl]; decide), List.append_nil]

/-- What stands behind the first segment of a label is cut where the label ends. -/
theorem labelFrom_split (front : List Name) {seg : Name} (rest : List Name) (hseg : isQuantSegment casing seg = true) :
    ∃ tail back, rest = tail ++ back ∧ labelFrom casing (front ++ seg :: rest) front.length = seg :: tail ∧
      (∀ s ∈ tail, inLabel casing s = true) ∧ ∀ s ∈ back.head?, inLabel casing s = false := by
  have htail : ∀ s ∈ rest.takeWhile (inLabel casing), inLabel casing s = true := List.all_eq_true.1 List.all_takeWhile
  have hback : ∀ s ∈ (rest.dropWhile (inLabel casing)).head?, inLabel casing s = false := by
    intro s hs
    have hnot := List.head?_dropWhile_not (inLabel casing) rest
    rw [Option.mem_def.1 hs] at hnot
    exact hnot
  have heq := labelFrom_eq front hseg htail hback
  rw [List.takeWhile_append_dropWhile] at heq
  exact ⟨_, _, List.takeWhile_append_dropWhile.symm, heq, htail, hback⟩

theorem labelRun_iff :
    LabelRun casing segments run ↔ (labelStart casing segments).map (labelFrom casing segments) = some run := by
  constructor
  · rintro ⟨front, seg, tail, back, rfl, rfl, htail, hback, hlast⟩
    have hstart : labelStart casing (front ++ seg :: (tail ++ back)) = some front.length := by
      rw [labelStart]
      rcases hlast with ⟨honly, hrest⟩ | ⟨hquant, hrest, hnone⟩
      · rw [rposition_append honly hrest]
        rfl
      · rw [rposition_eq_none_iff.2 hnone, rposition_append hquant hrest]
        rfl
    have hquant : isQuantSegment casing seg = true := hlast.elim (fun h => isQuantSegment_of_only h.1) (fun h => h.1)
    rw [hstart, Option.map_some, labelFrom_eq front hquant htail hback]
  · intro h
    obtain ⟨start, hstart, hrun⟩ := Option.map_eq_some_iff.1 h
    rw [labelStart] at hstart
    cases honly : rposition (isQuantOnly casing) segments with
    | some i =>
        rw [honly] at hstart
        obtain rfl := Option.some.inj hstart
        obtain ⟨front, seg, rest, rfl, rfl, hseg, hrest⟩ := exists_of_rposition honly
        obtain ⟨tail, back, rfl, hlabel, htail, hback⟩ := labelFrom_split front rest (isQuantSegment_of_only hseg)
        exact ⟨front, seg, tail, back, rfl, hrun.symm.trans hlabel, htail, hback, .inl ⟨hseg, hrest⟩⟩
    | none =>
        rw [honly] at hstart
        obtain ⟨front, seg, rest, rfl, rfl, hseg, hrest⟩ := exists_of_rposition (p := isQuantSegment casing) hstart
        obtain ⟨tail, back, rfl, hlabel, htail, hback⟩ := labelFrom_split front rest hseg
        exact ⟨front, seg, tail, back, rfl, hrun.symm.trans hlabel, htail, hback,
          .inr ⟨hseg, hrest, rposition_eq_none_iff.1 honly⟩⟩

/-- The label of a run. -/
def joined (casing : Casing) (run : List Name) : Name := ['-'].intercalate (run.map casing.toUppercase)

theorem extract_eq : extractQuantFromFilename casing filename =
    ((labelStart casing (segmentsOf filename)).map (labelFrom casing (segmentsOf filename))).map (joined casing) := by
  rw [Option.map_map]
  show (labelStart casing (segmentsOf filename)).bind _ = _
  cases labelStart casing (segmentsOf filename) <;> rfl

theorem extract_eq_some_iff : extractQuantFromFilename casing filename = some label ↔
    ∃ run, LabelRun casing (segmentsOf filename) run ∧ joined casing run = label := by
  rw [extract_eq, Option.map_eq_some_iff]
  simp only [labelRun_iff]

theorem extract_eq_none_iff : extractQuantFromFilename casing filename = none ↔
    ∀ seg ∈ segmentsOf filename, isQuantSegment casing seg = false := by
  rw [extract_eq, Option.map_eq_none_iff, Option.map_eq_none_iff, labelStart]
  constructor
  · intro h
    cases honly : rposition (isQuantOnly casing) (segmentsOf filename) with
    | some i =>
        rw [honly] at h
        cases h
    | none =>
        rw [honly] at h
        exact rposition_eq_none_iff.1 h
  · intro h
    have honly : ∀ seg ∈ segmentsOf filename, isQuantOnly casing seg = false := by
      intro seg hseg
      rw [isQuantOnly, h seg hseg, Bool.false_and]
    rw [rposition_eq_none_iff.2 honly, rposition_eq_none_iff.2 h]
    rfl

end Runs

/-! ## One label for two stems -/

section Collisions

variable {casing : Casing} {a b k l : Name} {run run' : List Name}

theorem eqIgnoreAsciiCase_iff : eqIgnoreAsciiCase a b = true ↔ toAsciiLowercase a = toAsciiLowercase b := beq_iff_eq

theorem toLower_dash {c : Char} (h : c.toLower = '-') : c = '-' := by
  by_cases hupper : c.val ≥ 'A'.val ∧ c.val ≤ 'Z'.val
  · have hshift : c.toLower = _ := dif_pos hupper
    rw [hshift] at h
    have hlow : 65 ≤ c.val.toNat := hupper.1
    have hhigh : c.val.toNat ≤ 90 := hupper.2
    have hsum : (c.val + 32).toNat = 45 := congrArg (fun c : Char => c.val.toNat) h
    have hstep : (32 : UInt32).toNat = 32 := rfl
    rw [UInt32.toNat_add] at hsum
    omega
  · exact (dif_neg hupper).symm.trans h

theorem dash_not_mem_of_stripPrefix {pre u rest : Name} (hpre : '-' ∉ pre) (h : stripPrefix pre u = some rest)
    (hrest : '-' ∉ rest) : '-' ∉ u := by
  obtain ⟨hstarts, h⟩ := Option.ite_none_right_eq_some.1 h
  obtain ⟨tail, rfl⟩ := List.isPrefixOf_iff_prefix.1 hstarts
  rw [List.drop_left] at h
  obtain rfl := Option.some.inj h
  exact List.not_mem_append hpre hrest

/-- A segment of a label has no dash in upper case either. -/
theorem dash_not_mem_label {seg : Name} (h : inLabel casing seg = true) : '-' ∉ casing.toUppercase seg := by
  have hliterals : ∀ us : List Name, (∀ u ∈ us, '-' ∉ u) → us.contains (casing.toUppercase seg) = true →
      '-' ∉ casing.toUppercase seg :=
    fun us hus hmem => hus _ (List.contains_iff_mem.1 hmem)
  rcases Bool.or_eq_true_iff.1 h with hquant | hprecision
  · rw [isQuantSegment] at hquant
    by_cases hfloat : ["BF16".toList, "F16".toList, "F32".toList].contains (casing.toUppercase seg) = true
    · exact hliterals _ (by decide) hfloat
    simp only [if_neg hfloat] at hquant
    -- the digits, letters and lines behind the opening
    cases hdigits : (stripPrefix "IQ".toList (casing.toUppercase seg) <|>
        stripPrefix "Q".toList (casing.toUppercase seg)).getD [] with
    | nil =>
        rw [hdigits] at hquant
        exact absurd hquant Bool.false_ne_true
    | cons c chars =>
        rw [hdigits] at hquant
        obtain ⟨hdigit, hall⟩ := Bool.and_eq_true_iff.1 hquant
        have hrest : '-' ∉ c :: chars := by
          intro hmem
          rcases List.mem_cons.1 hmem with rfl | hmem
          · exact absurd hdigit (by decide)
          · exact absurd (List.all_eq_true.1 hall '-' hmem) (by decide)
        cases hiq : stripPrefix "IQ".toList (casing.toUppercase seg) with
        | some rest =>
            rw [hiq] at hdigits
            obtain rfl : rest = c :: chars := hdigits
            exact dash_not_mem_of_stripPrefix (by decide) hiq hrest
        | none =>
            cases hq : stripPrefix "Q".toList (casing.toUppercase seg) with
            | some rest =>
                rw [hiq, hq] at hdigits
                obtain rfl : rest = c :: chars := hdigits
                exact dash_not_mem_of_stripPrefix (by decide) hq hrest
            | none =>
                rw [hiq, hq] at hdigits
                exact absurd hdigits.symm (List.cons_ne_nil _ _)
  · exact hliterals _ (by decide) hprecision

theorem toAsciiLowercase_joined (run : List Name) : toAsciiLowercase (joined casing run) =
    ['-'].intercalate (run.map fun seg => toAsciiLowercase (casing.toUppercase seg)) := by
  rw [joined]
  induction run with
  | nil => rfl
  | cons seg run ih =>
      cases run with
      | nil => simp only [List.map_cons, List.map_nil, List.intercalate_singleton]
      | cons seg' run =>
          simp only [List.map_cons, List.intercalate_cons_cons] at ih ⊢
          rw [← ih]
          simp only [toAsciiLowercase, List.map_append, List.map_cons, List.map_nil]
          rfl

/-- A joined run falls apart into its segments again. -/
theorem splitOn_joined (hne : run ≠ []) (h : ∀ seg ∈ run, inLabel casing seg = true) :
    (toAsciiLowercase (joined casing run)).splitOn '-' =
      run.map fun seg => toAsciiLowercase (casing.toUppercase seg) := by
  rw [toAsciiLowercase_joined, List.splitOn_intercalate '-' _ (mt List.map_eq_nil_iff.1 hne)]
  intro seg hseg hdash
  obtain ⟨s, hs, rfl⟩ := List.mem_map.1 hseg
  obtain ⟨c, hc, hlower⟩ := List.mem_map.1 hdash
  rw [toLower_dash hlower] at hc
  exact dash_not_mem_label (h s hs) hc

theorem LabelRun.inLabel {segments : List Name} (h : LabelRun casing segments run) :
    run ≠ [] ∧ ∀ seg ∈ run, Variants.inLabel casing seg = true := by
  obtain ⟨front, seg, tail, back, -, rfl, htail, -, hlast⟩ := h
  refine ⟨List.cons_ne_nil _ _, fun s hs => ?_⟩
  rcases List.mem_cons.1 hs with rfl | hs
  · exact inLabel_of_quant (hlast.elim (fun h => isQuantSegment_of_only h.1) (fun h => h.1))
  · exact htail s hs

/-- Two segments that are the same up to case. -/
def SameSegment (casing : Casing) (s t : Name) : Prop :=
  eqIgnoreAsciiCase (casing.toUppercase s) (casing.toUppercase t) = true

/-- A stem without a quantization. -/
def Unquantized (casing : Casing) (k : Name) : Prop := ∀ seg ∈ segmentsOf k, isQuantSegment casing seg = false

/-- Two stems that are labelled alike: what they have of a quantization is the same segment by segment, whatever stands
before it and behind it; or neither has one and they are the same up to case; or one without is what the other has. -/
inductive LabelledAlike (casing : Casing) (k l : Name) : Prop where
  | runs (run run' : List Name) (hk : LabelRun casing (segmentsOf k) run) (hl : LabelRun casing (segmentsOf l) run')
      (same : List.Forall₂ (SameSegment casing) run run')
  | plain (hk : Unquantized casing k) (hl : Unquantized casing l) (same : eqIgnoreAsciiCase k l = true)
  | left (run : List Name) (hk : Unquantized casing k) (hl : LabelRun casing (segmentsOf l) run)
      (same : eqIgnoreAsciiCase k (joined casing run) = true)
  | right (run : List Name) (hk : LabelRun casing (segmentsOf k) run) (hl : Unquantized casing l)
      (same : eqIgnoreAsciiCase (joined casing run) l = true)

/-- The label of a stem. -/
def labelOf (casing : Casing) (k : Name) : Name := (extractQuantFromFilename casing k).getD k

theorem sameRuns_iff (hk : LabelRun casing (segmentsOf k) run) (hl : LabelRun casing (segmentsOf l) run') :
    eqIgnoreAsciiCase (joined casing run) (joined casing run') = true ↔ List.Forall₂ (SameSegment casing) run run' := by
  obtain ⟨hne, hin⟩ := hk.inLabel
  obtain ⟨hne', hin'⟩ := hl.inLabel
  have hsegments : toAsciiLowercase (joined casing run) = toAsciiLowercase (joined casing run') ↔
      (run.map fun seg => toAsciiLowercase (casing.toUppercase seg)) =
        run'.map fun seg => toAsciiLowercase (casing.toUppercase seg) := by
    constructor
    · intro h
      rw [← splitOn_joined hne hin, ← splitOn_joined hne' hin', h]
    · intro h
      rw [toAsciiLowercase_joined, toAsciiLowercase_joined, h]
  have hsame : SameSegment casing =
      fun s t => toAsciiLowercase (casing.toUppercase s) = toAsciiLowercase (casing.toUppercase t) :=
    funext fun s => funext fun t => propext eqIgnoreAsciiCase_iff
  rw [eqIgnoreAsciiCase_iff, hsegments, ← List.forall₂_eq_eq_eq, List.forall₂_map_left_iff, List.forall₂_map_right_iff,
    hsame]

/-- Two stems have one label, up to case, exactly when they are labelled alike. -/
theorem LabelRun.labelOf_eq (h : LabelRun casing (segmentsOf k) run) : labelOf casing k = joined casing run := by
  rw [labelOf, extract_eq_some_iff.2 ⟨run, h, rfl⟩, Option.getD_some]

theorem Unquantized.labelOf_eq (h : Unquantized casing k) : labelOf casing k = k := by
  rw [labelOf, extract_eq_none_iff.2 h, Option.getD_none]

theorem unquantized_or_run (casing : Casing) (k : Name) :
    Unquantized casing k ∨ ∃ run, LabelRun casing (segmentsOf k) run := by
  cases h : extractQuantFromFilename casing k with
  | none => exact .inl (extract_eq_none_iff.1 h)
  | some label =>
      obtain ⟨run, hrun, -⟩ := extract_eq_some_iff.1 h
      exact .inr ⟨run, hrun⟩

theorem sameLabel_iff : eqIgnoreAsciiCase (labelOf casing k) (labelOf casing l) = true ↔ LabelledAlike casing k l := by
  constructor
  · intro h
    rcases unquantized_or_run casing k with hk | ⟨run, hk⟩ <;> rcases unquantized_or_run casing l with hl | ⟨run', hl⟩
    · rw [hk.labelOf_eq, hl.labelOf_eq] at h
      exact .plain hk hl h
    · rw [hk.labelOf_eq, hl.labelOf_eq] at h
      exact .left run' hk hl h
    · rw [hk.labelOf_eq, hl.labelOf_eq] at h
      exact .right run hk hl h
    · rw [hk.labelOf_eq, hl.labelOf_eq] at h
      exact .runs run run' hk hl ((sameRuns_iff hk hl).1 h)
  · intro h
    cases h with
    | runs run run' hk hl same =>
        rw [hk.labelOf_eq, hl.labelOf_eq]
        exact (sameRuns_iff hk hl).2 same
    | plain hk hl same =>
        rw [hk.labelOf_eq, hl.labelOf_eq]
        exact same
    | left run hk hl same =>
        rw [hk.labelOf_eq, hl.labelOf_eq]
        exact same
    | right run hk hl same =>
        rw [hk.labelOf_eq, hl.labelOf_eq]
        exact same

end Collisions

/-! ## The groups -/

section Groups

variable {casing : Casing} {files : List RepoFile} {variants : List GgufVariant}

/-- The stem that a file is grouped by. -/
def stemKey (f : RepoFile) : Option Name := stripSplitSuffix (stemOf f.1)

/-- The variants with their stems: each has the kept files of its stem and the label of it, no two have one stem, and the
stem of every kept file is there. -/
structure Grouped (casing : Casing) (files : List RepoFile) (groups : List (Name × GgufVariant)) : Prop where
  nodup : (groups.map (·.1)).Nodup
  labels : ∀ g ∈ groups, g.2.quantName = labelOf casing g.1
  things : ∀ g ∈ groups, ∀ f, f ∈ g.2.files ↔ f ∈ keepModelVariants casing files ∧ stemKey f = some g.1
  covered : ∀ f ∈ keepModelVariants casing files, ∃ g ∈ groups, stemKey f = some g.1
  inhabited : ∀ g ∈ groups, ∃ f ∈ keepModelVariants casing files, stemKey f = some g.1

theorem group_spec (h : groupGgufVariants casing files = some variants) :
    ∃ groups, variants = groups.map (·.2) ∧ Grouped casing files groups := by
  obtain ⟨keyed, hkeyed, h⟩ := Option.bind_eq_some_iff.1 h
  obtain ⟨hmap, hkeys⟩ := Grouping.keyed_spec hkeyed
  have hequiv : Equivalence fun k k' : Name => (k == k') = true :=
    ⟨fun k => beq_self_eq_true k, fun h => beq_iff_eq.2 (beq_iff_eq.1 h).symm,
      fun h h' => beq_iff_eq.2 ((beq_iff_eq.1 h).trans (beq_iff_eq.1 h'))⟩
  have hgroups := Grouping.groupsOf_foldl hequiv keyed
  generalize keyed.foldl (Grouping.push fun k k' => k == k') [] = groups at h hgroups
  have hstems : ∀ g ∈ groups, ∀ f, f ∈ g.2 ↔ f ∈ keepModelVariants casing files ∧ stemKey f = some g.1 := by
    intro g hg f
    rw [hgroups.things g hg, Grouping.ofKey_keyed hkeyed, List.mem_filter, Option.any_eq_true]
    refine and_congr_right fun _ => ⟨?_, fun hstem => ⟨_, hstem, beq_self_eq_true g.1⟩⟩
    rintro ⟨k, hstem, heq⟩
    exact hstem.trans (congrArg some (beq_iff_eq.1 heq).symm)
  refine ⟨groups.map fun g => (g.1, ⟨labelOf casing g.1, g.2.mergeSort fun f f' => !decide (f'.1 < f.1)⟩), ?_, ?_, ?_, ?_,
    ?_, ?_⟩
  · rw [List.map_map]
    exact (Option.some.inj h).symm
  · rw [List.map_map, List.Nodup, List.pairwise_map]
    exact hgroups.apart.imp fun hne heq => hne (beq_iff_eq.2 heq)
  · intro p hp
    obtain ⟨g, -, rfl⟩ := List.mem_map.1 hp
    rfl
  · intro p hp f
    obtain ⟨g, hg, rfl⟩ := List.mem_map.1 hp
    exact List.mem_mergeSort.trans (hstems g hg f)
  · intro f hf
    rw [← hmap] at hf
    obtain ⟨p, hp, rfl⟩ := List.mem_map.1 hf
    obtain ⟨g, hg, heq⟩ := hgroups.covered p hp
    exact ⟨_, List.mem_map_of_mem hg, (hkeys p hp).trans (congrArg some (beq_iff_eq.1 heq).symm)⟩
  · intro p hp
    obtain ⟨g, hg, rfl⟩ := List.mem_map.1 hp
    obtain ⟨q, hq, heq⟩ := hgroups.inhabited g hg
    refine ⟨q.1, ?_, (hkeys q hq).trans (congrArg some heq)⟩
    rw [← hmap]
    exact List.mem_map_of_mem hq

/-- The grouping returns exactly when no kept stem is a bare split suffix. -/
theorem group_isSome_iff : (∃ variants, groupGgufVariants casing files = some variants) ↔
    ∀ f ∈ keepModelVariants casing files, ¬ BareSplit (stemOf f.1) := by
  have hsome : ∀ f : RepoFile, (∃ k, stripSplitSuffix (stemOf f.1) = some k) ↔ ¬ BareSplit (stemOf f.1) := by
    intro f
    rw [← stripSplitSuffix_eq_none_iff, ← Option.ne_none_iff_exists']
  constructor
  · rintro ⟨variants, h⟩ f hf
    obtain ⟨keyed, hkeyed, -⟩ := Option.bind_eq_some_iff.1 h
    exact (hsome f).1 (Grouping.keyed_some hkeyed f hf)
  · intro h
    obtain ⟨keyed, hkeyed⟩ := Grouping.exists_keyed fun f hf => (hsome f).2 (h f hf)
    rw [groupGgufVariants, hkeyed]
    exact ⟨_, rfl⟩

/-! ## Told apart -/

/-- Every kept file is in one variant, shards of a stem are together and different stems are not, and the labels name the
variants: each is what its label selects, and one that is not on disk is offered. -/
structure ToldApart (casing : Casing) (files : List RepoFile) (variants : List GgufVariant) : Prop where
  exactlyOne : ∀ f ∈ keepModelVariants casing files, ∃! i : Nat, ∃ v, variants[i]? = some v ∧ f ∈ v.files
  kept : ∀ v ∈ variants, ∀ f ∈ v.files, f ∈ keepModelVariants casing files
  shards : ∀ k, ∀ f ∈ keepModelVariants casing files, ∀ g ∈ keepModelVariants casing files,
    ShardOf k f.1 → ShardOf k g.1 → ∃ v ∈ variants, f ∈ v.files ∧ g ∈ v.files
  stems : ∀ v ∈ variants, ∀ f ∈ v.files, ∀ g ∈ v.files, stemKey f = stemKey g
  labels : variants.Pairwise fun v w => eqIgnoreAsciiCase v.quantName w.quantName = false
  selected : ∀ v ∈ variants, ∀ pref, eqIgnoreAsciiCase v.quantName pref = true → ∀ present choose,
    selectVariant variants (some pref) present choose = .ok v
  offered : ∀ destExists force disk, ∀ v ∈ variants, onDisk disk v = false →
    v ∈ availableOf variants (alreadyPresent destExists force disk variants)

theorem stemKey_shard {k : Name} {f : RepoFile} (h : ShardOf k f.1) : stemKey f = some k := by
  obtain ⟨a, b, ha, hb, hname⟩ := h
  have hsuffix : gguf.isSuffixOf f.1 = true := by
    rw [hname, List.isSuffixOf_iff_suffix]
    exact List.suffix_append _ _
  rw [stemKey, stemOf, stripSuffix, if_pos hsuffix, Option.getD_some, hname, List.length_append, Nat.add_sub_cancel,
    List.take_left, stripSplitSuffix_shard ha hb]

theorem eqIgnoreAsciiCase_comm (a b : Name) : eqIgnoreAsciiCase a b = eqIgnoreAsciiCase b a := by
  rw [Bool.eq_iff_iff, eqIgnoreAsciiCase_iff, eqIgnoreAsciiCase_iff, eq_comm]

/-- One of the variants is the only one of its label. -/
theorem eq_of_sameLabel (h : variants.Pairwise fun v w => eqIgnoreAsciiCase v.quantName w.quantName = false)
    {v w : GgufVariant} (hv : v ∈ variants) (hw : w ∈ variants)
    (hsame : eqIgnoreAsciiCase v.quantName w.quantName = true) : v = w := by
  have hsymm : Std.Symm fun v w : GgufVariant => eqIgnoreAsciiCase v.quantName w.quantName = false :=
    ⟨fun v w hvw => (eqIgnoreAsciiCase_comm ..).trans hvw⟩
  by_contra hne
  exact absurd (hsame.symm.trans (h.forall hv hw hne)) Bool.true_eq_false.mp

theorem selectVariant_eq (h : variants.Pairwise fun v w => eqIgnoreAsciiCase v.quantName w.quantName = false)
    {v : GgufVariant} (hv : v ∈ variants) {pref : Name} (hpref : eqIgnoreAsciiCase v.quantName pref = true)
    (present : List Name) (choose : List GgufVariant → GgufVariant) :
    selectVariant variants (some pref) present choose = .ok v := by
  rw [selectVariant]
  cases hfind : variants.find? fun v => eqIgnoreAsciiCase v.quantName pref with
  | none => exact absurd hpref (List.find?_eq_none.1 hfind v hv)
  | some w =>
      have hw := List.find?_some hfind
      have hsame : eqIgnoreAsciiCase w.quantName v.quantName = true := by
        rw [eqIgnoreAsciiCase_iff] at hw hpref ⊢
        exact hw.trans hpref.symm
      rw [eq_of_sameLabel h (List.mem_of_find?_eq_some hfind) hv hsame]

theorem mem_availableOf (h : variants.Pairwise fun v w => eqIgnoreAsciiCase v.quantName w.quantName = false)
    {v : GgufVariant} (hv : v ∈ variants) {disk : Name → Option Nat} (habsent : onDisk disk v = false)
    (destExists force : Bool) : v ∈ availableOf variants (alreadyPresent destExists force disk variants) := by
  have hlabel : v.quantName ∉ alreadyPresent destExists force disk variants := by
    intro hmem
    rw [alreadyPresent] at hmem
    split at hmem
    · obtain ⟨w, hw, hname⟩ := List.mem_map.1 hmem
      obtain ⟨hw, hdisk⟩ := List.mem_filter.1 hw
      have hsame : eqIgnoreAsciiCase w.quantName v.quantName = true := by
        rw [hname, eqIgnoreAsciiCase_iff]
      rw [eq_of_sameLabel h (List.mem_filter.1 hw).1 hv hsame, habsent] at hdisk
      exact absurd hdisk Bool.false_ne_true
    · exact absurd hmem List.not_mem_nil
  refine List.mem_filter.2 ⟨hv, ?_⟩
  rw [Bool.not_eq_true', List.contains_eq_mem, decide_eq_false hlabel]

section Spec

variable {groups : List (Name × GgufVariant)} (h : Grouped casing files groups)
include h

/-- Two places of one stem are one. -/
theorem Grouped.place_unique {i j : Nat} {g g' : Name × GgufVariant} (hi : groups[i]? = some g)
    (hj : groups[j]? = some g') (hkey : g.1 = g'.1) : i = j := by
  have hplace : (groups.map (·.1))[i]? = some g.1 := by rw [List.getElem?_map, hi, Option.map_some]
  have hplace' : (groups.map (·.1))[j]? = some g'.1 := by rw [List.getElem?_map, hj, Option.map_some]
  obtain ⟨hlt, -⟩ := List.getElem?_eq_some_iff.1 hplace
  exact (List.getElem?_inj hlt h.nodup).1 (hplace.trans ((congrArg some hkey).trans hplace'.symm))

theorem Grouped.exactlyOne {f : RepoFile} (hf : f ∈ keepModelVariants casing files) :
    ∃! i : Nat, ∃ v, (groups.map (·.2))[i]? = some v ∧ f ∈ v.files := by
  obtain ⟨g, hg, hstem⟩ := h.covered f hf
  obtain ⟨i, hi⟩ := List.getElem?_of_mem hg
  refine ⟨i, ⟨g.2, by rw [List.getElem?_map, hi, Option.map_some], (h.things g hg f).2 ⟨hf, hstem⟩⟩, ?_⟩
  rintro j ⟨v, hj, hv⟩
  rw [List.getElem?_map] at hj
  obtain ⟨g', hg', rfl⟩ := Option.map_eq_some_iff.1 hj
  have hstem' := ((h.things g' (List.mem_of_getElem? hg') f).1 hv).2
  exact h.place_unique hg' hi (Option.some.inj (hstem'.symm.trans hstem))

/-- Where no two stems are labelled alike, the labels are apart. -/
theorem Grouped.labels_apart (hapart : ∀ f ∈ keepModelVariants casing files, ∀ g ∈ keepModelVariants casing files,
      ∀ k l, stemKey f = some k → stemKey g = some l → k ≠ l → ¬ LabelledAlike casing k l) :
    (groups.map (·.2)).Pairwise fun v w => eqIgnoreAsciiCase v.quantName w.quantName = false := by
  rw [List.pairwise_map]
  have hkeys : groups.Pairwise fun g g' => g.1 ≠ g'.1 := List.pairwise_map.1 h.nodup
  refine hkeys.imp_of_mem fun {g g'} hg hg' hne => ?_
  obtain ⟨f, hf, hstem⟩ := h.inhabited g hg
  obtain ⟨f', hf', hstem'⟩ := h.inhabited g' hg'
  rw [h.labels g hg, h.labels g' hg', Bool.eq_false_iff, ne_eq, sameLabel_iff]
  exact hapart f hf f' hf' g.1 g'.1 hstem hstem' hne

end Spec

theorem ToldApart.not_labelledAlike (hvariants : groupGgufVariants casing files = some variants)
    (htold : ToldApart casing files variants) {f g : RepoFile} (hf : f ∈ keepModelVariants casing files)
    (hg : g ∈ keepModelVariants casing files) {k l : Name} (hk : stemKey f = some k) (hl : stemKey g = some l)
    (hne : k ≠ l) : ¬ LabelledAlike casing k l := by
  intro halike
  obtain ⟨groups, rfl, hgroups⟩ := group_spec hvariants
  obtain ⟨p, hp, hfp⟩ := hgroups.covered f hf
  obtain ⟨p', hp', hgp⟩ := hgroups.covered g hg
  obtain rfl := Option.some.inj (hk.symm.trans hfp)
  obtain rfl := Option.some.inj (hl.symm.trans hgp)
  -- two variants of one label are one, and so is their stem
  have hsame : eqIgnoreAsciiCase p.2.quantName p'.2.quantName = true := by
    rw [hgroups.labels p hp, hgroups.labels p' hp', sameLabel_iff]
    exact halike
  have heq : p.2 = p'.2 :=
    eq_of_sameLabel htold.labels (List.mem_map_of_mem hp) (List.mem_map_of_mem hp') hsame
  have hmem : f ∈ p'.2.files := heq ▸ (hgroups.things p hp f).2 ⟨hf, hfp⟩
  exact hne (Option.some.inj (hfp.symm.trans ((hgroups.things p' hp' f).1 hmem).2))

/-- The variants of a repository are told apart exactly where no kept file is named by a split suffix alone and no two
kept stems are labelled alike. -/
theorem toldApart_iff (casing : Casing) (files : List RepoFile) :
    (∃ variants, groupGgufVariants casing files = some variants ∧ ToldApart casing files variants) ↔
      (∀ f ∈ keepModelVariants casing files, ¬ BareSplit (stemOf f.1)) ∧
        ∀ f ∈ keepModelVariants casing files, ∀ g ∈ keepModelVariants casing files, ∀ k l,
          stemKey f = some k → stemKey g = some l → k ≠ l → ¬ LabelledAlike casing k l := by
  constructor
  · rintro ⟨variants, hvariants, htold⟩
    exact ⟨group_isSome_iff.1 ⟨variants, hvariants⟩,
      fun f hf g hg k l hk hl hne => htold.not_labelledAlike hvariants hf hg hk hl hne⟩
  · rintro ⟨hbare, hapart⟩
    obtain ⟨variants, hvariants⟩ := group_isSome_iff.2 hbare
    obtain ⟨groups, rfl, hgroups⟩ := group_spec hvariants
    have hlabels := hgroups.labels_apart hapart
    refine ⟨_, hvariants, {
      exactlyOne := fun f hf => hgroups.exactlyOne hf
      kept := fun v hv f hf => ?_
      shards := fun k f hf g hg hshard hshard' => ?_
      stems := fun v hv f hf g hg => ?_
      labels := hlabels
      selected := fun v hv pref hpref present choose => selectVariant_eq hlabels hv hpref present choose
      offered := fun destExists force disk v hv habsent => mem_availableOf hlabels hv habsent destExists force }⟩
    · obtain ⟨p, hp, rfl⟩ := List.mem_map.1 hv
      exact ((hgroups.things p hp f).1 hf).1
    · obtain ⟨p, hp, hstem⟩ := hgroups.covered f hf
      have hsame : stemKey g = some p.1 := (stemKey_shard hshard').trans ((stemKey_shard hshard).symm.trans hstem)
      exact ⟨p.2, List.mem_map_of_mem hp, (hgroups.things p hp f).2 ⟨hf, hstem⟩, (hgroups.things p hp g).2 ⟨hg, hsame⟩⟩
    · obtain ⟨p, hp, rfl⟩ := List.mem_map.1 hv
      exact ((hgroups.things p hp f).1 hf).2.trans ((hgroups.things p hp g).1 hg).2.symm

/-! ## One label for two builds -/

/-- Upper and lower case of ASCII. -/
def asciiCasing : Casing where
  toUppercase s := s.map Char.toUpper
  toLowercase s := s.map Char.toLower

/-- A build and another one of the same quantization, told apart by what stands before it. -/
def twoBuilds : List RepoFile := [("m-UD-Q4_K_M.gguf".toList, 15), ("m-Q4_K_M.gguf".toList, 14)]

/-- A file that is named by its place among the shards alone. -/
def bareShards : List RepoFile := [("00001-of-00002.gguf".toList, 1), ("00002-of-00002.gguf".toList, 1)]

/-- Both builds are labelled `Q4_K_M`, and of the bare shards there is no variant at all. -/
theorem builds_share_label :
    (¬ ∃ variants, groupGgufVariants asciiCasing twoBuilds = some variants ∧ ToldApart asciiCasing twoBuilds variants) ∧
      groupGgufVariants asciiCasing bareShards = none := by
  constructor
  · rintro ⟨variants, hvariants, htold⟩
    have hkept : keepModelVariants asciiCasing twoBuilds = twoBuilds := by decide
    refine htold.not_labelledAlike hvariants (f := ("m-UD-Q4_K_M.gguf".toList, 15)) (g := ("m-Q4_K_M.gguf".toList, 14))
      (k := "m-UD-Q4_K_M".toList) (l := "m-Q4_K_M".toList) ?_ ?_ (by decide) (by decide) (by decide)
      (sameLabel_iff.1 (by decide))
    · rw [hkept]; exact List.mem_cons_self
    · rw [hkept]; exact List.mem_cons_of_mem _ List.mem_cons_self
  · refine Option.not_isSome_iff_eq_none.1 fun hsome => ?_
    have hall := group_isSome_iff.1 (Option.isSome_iff_exists.1 hsome)
    refine hall ("00002-of-00002.gguf".toList, 1) (by decide) ?_
    exact ⟨"00002".toList, "00002".toList, by decide, by decide, by decide⟩

end Groups

end Oxydllm.Hub.Variants
