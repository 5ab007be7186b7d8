/-
# Oxydllm.Weights.FusedExact — which projections can be joined.

The forms of the parts decide: every part has a bias or none has, and either no part is FP8 or all are, with one
scale for each row of every part, or with grids of blocks of one height and one width (`Fusable`). Then the cuts
of the joined forward are the forwards of the parts; for any other forms that load one by one there are weights
for which the join fails or is of no part.
-/
import Oxydllm.Weights.Fused

namespace Oxydllm.Weights

open NdArray

variable {K : Type} [Field K]

/-! ## Forms -/

/-- What the load can see of a projection without its entries. -/
structure Form where
  out : Nat
  isFp8 : Bool
  scale : Option (List Nat)
  hasBias : Bool
  deriving DecidableEq, Repr

def Proj.out (p : Proj K) : Nat := p.weight.dims.headD 0

def Proj.form (p : Proj K) : Form := ⟨p.out, p.isFp8, p.scaleInv.map NdArray.dims, p.bias.isSome⟩

/-- A matrix from the input, and a bias for its rows. -/
structure Proj.Shaped (inn : Nat) (p : Proj K) : Prop where
  weight : p.weight.dims = [p.out, inn]
  bias : ∀ b, p.bias = some b → b.dims = [p.out]

/-- A projection of the form loads alone: FP8 has a scale, of a form that it takes. -/
structure Form.Loads (inn : Nat) (f : Form) : Prop where
  rows : 0 < f.out
  scaled : f.isFp8 = true → ∃ dims, f.scale = some dims ∧ ScaleForm f.out inn dims

/-- Scales that mean for the join what they mean for the parts. -/
def ScalesAlike (forms : List Form) : Prop :=
  (∀ f ∈ forms, f.scale = some [f.out]) ∨
    ∃ c h, ∀ f ∈ forms, ∃ a, f.scale = some [a, c] ∧ f.out = a * h

structure Fusable (forms : List Form) : Prop where
  biases : (∀ f ∈ forms, f.hasBias = true) ∨ ∀ f ∈ forms, f.hasBias = false
  scales : (∀ f ∈ forms, f.isFp8 = false) ∨ (∀ f ∈ forms, f.isFp8 = true) ∧ ScalesAlike forms

/-! ## The parts alone -/

/-- The entry a part multiplies the input by. -/
def Proj.eff (inn : Nat) (p : Proj K) (r l : Nat) : K :=
  match p.isFp8, p.scaleInv with
  | true, some s => p.weight.entry [r, l] * s.entry (scaleAt p.out inn s.dims r l)
  | _, _ => p.weight.entry [r, l]

section Parts

variable {inn : Nat} {lead : List Nat} {x : NdArray K}

theorem alone_spec {p : Proj K} (hp : p.Shaped inn) (hloads : p.form.Loads inn) (hx : x.dims = lead ++ [inn])
    (hlead : lead ≠ []) :
    ∃ y, p.alone x = .ok y ∧ y.dims = lead ++ [p.out] ∧
      ∀ idx o, InDims lead idx → o < p.out →
        y.entry (idx ++ [o]) = dot x inn idx (p.eff inn o) + biasAt p.bias o := by
  unfold Proj.alone AnyLinear.fromWeightWithScaleInv Proj.eff
  cases hfp8 : p.isFp8 with
  | false =>
      obtain ⟨wT, hwT, hdims, hentry⟩ := transpose_two hp.weight
      obtain ⟨y, hy, hydims, hyentry⟩ := matmulWithBias_spec hx hlead hdims hp.bias
      refine ⟨y, ?_, hydims, fun idx o hidx ho => ?_⟩
      · rw [if_neg Bool.false_ne_true, hwT]
        exact hy
      · rw [hyentry idx o hidx ho, dot_congr fun l _ => hentry o l]
  | true =>
      obtain ⟨dims, hscale, hform⟩ := hloads.scaled hfp8
      obtain ⟨s, hs, rfl⟩ := Option.map_eq_some_iff.1 hscale
      obtain ⟨w, hw, hwdims, hwentry⟩ := fp8Weight_form hp.weight hform
      have hl : ∀ x, (AnyLinear.fp8 p.weight p.scaleInv p.bias).forward x = (do
          let weightT ← ofOption "t" w.transpose
          matmulWithBias x weightT p.bias) := by
        intro x
        unfold AnyLinear.forward
        rw [hs]
        change (fp8Weight p.weight s >>= _) = _
        rw [hw]
        rfl
      obtain ⟨y, hy, hydims, hyentry⟩ := forward_spec hwdims hl hx hlead hp.bias
      refine ⟨y, hy, hydims, fun idx o hidx ho => ?_⟩
      rw [hyentry idx o hidx ho, dot_congr fun l hl => hwentry o l ho hl, hs]

end Parts

/-! ## The join -/

/-- The rows of the parts above. -/
def rowsAbove (parts : List (Proj K)) : Nat := rows (parts.map Proj.weight)

omit [Field K] in
theorem rowsAbove_eq (parts : List (Proj K)) : rowsAbove parts = (parts.map Proj.out).sum := by
  unfold rowsAbove rows
  rw [List.map_map]
  rfl

/-- A layer of the parts joined: row by row it multiplies by the rows of the parts, and adds their biases. -/
structure Joins (inn : Nat) (parts : List (Proj K)) (w : NdArray K) (bias : Option (NdArray K)) : Prop where
  weightDims : w.dims = [rowsAbove parts, inn]
  biasDims : ∀ b, bias = some b → b.dims = [rowsAbove parts]
  row : ∀ front p back, parts = front ++ p :: back → ∀ r, r < p.out →
    (∀ l, l < inn → w.entry [rowsAbove front + r, l] = p.eff inn r l) ∧
      biasAt bias (rowsAbove front + r) = biasAt p.bias r

section Join

variable {inn : Nat} {parts : List (Proj K)}

/-- The weights of the parts, one below the other. -/
theorem cat_weights (hne : parts ≠ []) (hparts : ∀ p ∈ parts, p.Shaped inn) :
    ∃ w, cat (parts.map Proj.weight) = some w ∧ w.dims = [rowsAbove parts, inn] ∧
      ∀ front p back, parts = front ++ p :: back → ∀ r, r < p.out → ∀ l,
        w.entry [rowsAbove front + r, l] = p.weight.entry [r, l] := by
  refine ⟨_, cat_eq [inn] (by simpa using hne) ?_, rfl, ?_⟩
  · intro u hu
    obtain ⟨p, hp, rfl⟩ := List.mem_map.1 hu
    exact ⟨p.out, (hparts p hp).weight⟩
  · rintro front p back rfl r hr l
    change stackEntry ((front ++ p :: back).map Proj.weight) (rowsAbove front + r) [l] = _
    rw [List.map_append, List.map_cons]
    exact stackEntry_append [l] hr

/-- The biases of the parts, where each has one. -/
theorem cat_biases (hne : parts ≠ []) (hparts : ∀ p ∈ parts, p.Shaped inn)
    (hbias : ∀ p ∈ parts, p.bias.isSome = true) :
    ∃ bs b, parts.mapM Proj.bias = some bs ∧ cat bs = some b ∧ b.dims = [rowsAbove parts] ∧
      ∀ front p back, parts = front ++ p :: back → ∀ r, r < p.out →
        b.entry [rowsAbove front + r] = biasAt p.bias r := by
  have hsome : ∀ p ∈ parts, ∃ b, p.bias = some b ∧ b.dims = [p.out] := by
    intro p hp
    obtain ⟨b, hb⟩ := Option.isSome_iff_exists.1 (hbias p hp)
    exact ⟨b, hb, (hparts p hp).bias b hb⟩
  have hdims : ∀ p ∈ parts, (p.bias.getD p.weight).dims = [p.out] := by
    intro p hp
    obtain ⟨b, hb, hbdims⟩ := hsome p hp
    rw [hb]
    exact hbdims
  have hrows : ∀ front : List (Proj K), (∀ p ∈ front, p ∈ parts) →
      rows (front.map fun p => p.bias.getD p.weight) = rowsAbove front := by
    intro front hfront
    refine rows_congr fun p hp => ?_
    rw [hdims p (hfront p hp)]
    rfl
  refine ⟨parts.map fun p => p.bias.getD p.weight, _, ?_, cat_eq [] (by simpa using hne) ?_, ?_, ?_⟩
  · refine Traverse.mapM_eq_map fun p hp => ?_
    obtain ⟨b, hb, -⟩ := hsome p hp
    rw [hb]
    rfl
  · intro u hu
    obtain ⟨p, hp, rfl⟩ := List.mem_map.1 hu
    exact ⟨p.out, hdims p hp⟩
  · exact congrArg (fun n => [n]) (hrows parts fun _ h => h)
  · rintro front p back rfl r hr
    have hp : p ∈ front ++ p :: back := List.mem_append_right _ List.mem_cons_self
    obtain ⟨b, hb, hbdims⟩ := hsome p hp
    change stackEntry ((front ++ p :: back).map fun p => p.bias.getD p.weight) (rowsAbove front + r) [] = _
    rw [List.map_append, List.map_cons, ← hrows front fun q hq => List.mem_append_left _ hq]
    have hhead : r < (p.bias.getD p.weight).dims.headD 0 := by
      rw [hdims p hp]
      exact hr
    rw [stackEntry_append [] hhead, hb]
    rfl

/-- The scales of the parts, where each has one. -/
def Proj.scale (p : Proj K) : NdArray K := p.scaleInv.getD p.weight

omit [Field K] in
theorem Proj.scaleInv_eq {p : Proj K} {dims : List Nat} (h : p.form.scale = some dims) :
    p.scaleInv = some p.scale ∧ p.scale.dims = dims := by
  obtain ⟨s, hs, rfl⟩ := Option.map_eq_some_iff.1 h
  unfold Proj.scale
  rw [hs]
  exact ⟨rfl, rfl⟩

omit [Field K] in
theorem mapM_scales (h : ∀ p ∈ parts, ∃ dims, p.form.scale = some dims) :
    parts.mapM Proj.scaleInv = some (parts.map Proj.scale) := by
  refine Traverse.mapM_eq_map fun p hp => ?_
  obtain ⟨dims, hdims⟩ := h p hp
  exact (Proj.scaleInv_eq hdims).1

/-- One scale for each row: the joined list has that of each row of each part. -/
theorem cat_lists (hne : parts ≠ []) (h : ∀ p ∈ parts, p.form.scale = some [p.out]) :
    ∃ s, cat (parts.map Proj.scale) = some s ∧ s.dims = [rowsAbove parts] ∧
      ∀ front p back, parts = front ++ p :: back → ∀ r, r < p.out →
        s.entry [rowsAbove front + r] = p.scale.entry [r] := by
  have hrows : ∀ front : List (Proj K), (∀ p ∈ front, p ∈ parts) → rows (front.map Proj.scale) = rowsAbove front := by
    intro front hfront
    refine rows_congr fun p hp => ?_
    rw [(Proj.scaleInv_eq (h p (hfront p hp))).2]
    rfl
  refine ⟨_, cat_eq [] (by simpa using hne) ?_, congrArg (fun n => [n]) (hrows parts fun _ h => h), ?_⟩
  · intro u hu
    obtain ⟨p, hp, rfl⟩ := List.mem_map.1 hu
    exact ⟨p.out, (Proj.scaleInv_eq (h p hp)).2⟩
  · rintro front p back rfl r hr
    have hp : p ∈ front ++ p :: back := List.mem_append_right _ List.mem_cons_self
    change stackEntry ((front ++ p :: back).map Proj.scale) (rowsAbove front + r) [] = _
    rw [List.map_append, List.map_cons, ← hrows front fun q hq => List.mem_append_left _ hq]
    refine stackEntry_append [] ?_
    rw [(Proj.scaleInv_eq (h p hp)).2]
    exact hr

/-- The grids of the parts, one below the other. -/
theorem cat_grids {c : Nat} (hne : parts ≠ []) (h : ∀ p ∈ parts, ∃ a, p.form.scale = some [a, c]) :
    ∃ s, cat (parts.map Proj.scale) = some s ∧ s.dims = [rows (parts.map Proj.scale), c] ∧
      ∀ front p back, parts = front ++ p :: back → ∀ a, p.scale.dims = [a, c] → ∀ i, i < a → ∀ j,
        s.entry [rows (front.map Proj.scale) + i, j] = p.scale.entry [i, j] := by
  refine ⟨_, cat_eq [c] (by simpa using hne) ?_, rfl, ?_⟩
  · intro u hu
    obtain ⟨p, hp, rfl⟩ := List.mem_map.1 hu
    obtain ⟨a, ha⟩ := h p hp
    exact ⟨a, (Proj.scaleInv_eq ha).2⟩
  · rintro front p back rfl a ha i hi j
    change stackEntry ((front ++ p :: back).map Proj.scale) (rows (front.map Proj.scale) + i) [j] = _
    rw [List.map_append, List.map_cons]
    refine stackEntry_append [j] ?_
    rw [ha]
    exact hi

omit [Field K] in
/-- Rows of blocks of one height. -/
theorem rows_of_height {c h : Nat} (hall : ∀ p ∈ parts, ∃ a, p.form.scale = some [a, c] ∧ p.out = a * h) :
    rowsAbove parts = rows (parts.map Proj.scale) * h := by
  induction parts with
  | nil => exact (Nat.zero_mul h).symm
  | cons p parts ih =>
      obtain ⟨a, ha, hout⟩ := hall p List.mem_cons_self
      have hp : rowsAbove (p :: parts) = p.out + rowsAbove parts := rfl
      have hs : rows ((p :: parts).map Proj.scale) = a + rows (parts.map Proj.scale) := by
        rw [List.map_cons, rows_cons, (Proj.scaleInv_eq ha).2]
        rfl
      rw [hp, hs, ih fun q hq => hall q (List.mem_cons_of_mem _ hq), hout, Nat.add_mul]

omit [Field K] in
theorem any_false (hall : ∀ p ∈ parts, p.isFp8 = false) : parts.any Proj.isFp8 = false := by
  rw [List.any_eq_false]
  intro p hp
  rw [hall p hp]
  exact Bool.false_ne_true

omit [Field K] in
theorem any_true (hne : parts ≠ []) (hall : ∀ p ∈ parts, p.isFp8 = true) : parts.any Proj.isFp8 = true := by
  obtain ⟨p, hp⟩ := List.exists_mem_of_ne_nil _ hne
  exact List.any_eq_true.2 ⟨p, hp, hall p hp⟩

theorem fuse_float {missing : String} {biases : Option (List (NdArray K))} {w : NdArray K}
    {bias : Option (NdArray K)} (hw : cat (parts.map Proj.weight) = some w) (hbias : joinedBias biases = .ok bias)
    (hall : ∀ p ∈ parts, p.isFp8 = false) :
    fuse missing parts biases = AnyLinear.fromWeightWithScaleInv false w none bias := by
  unfold fuse oneDtype joinedScale
  rw [hw, any_false hall, hbias]
  rfl

theorem fuse_fp8 {missing : String} {biases : Option (List (NdArray K))} {w s : NdArray K}
    {bias : Option (NdArray K)} {ss : List (NdArray K)} (hne : parts ≠ [])
    (hw : cat (parts.map Proj.weight) = some w) (hbias : joinedBias biases = .ok bias)
    (hall : ∀ p ∈ parts, p.isFp8 = true) (hss : parts.mapM Proj.scaleInv = some ss) (hs : cat ss = some s) :
    fuse missing parts biases = .ok (.fp8 w (some s) bias) := by
  have hallb : parts.all Proj.isFp8 = true := List.all_eq_true.2 hall
  have hscale : joinedScale missing parts = .ok (some s) := by
    unfold joinedScale
    rw [any_true hne hall, hss]
    change (ofOption "cat" (cat ss)).map some = _
    rw [hs]
    rfl
  unfold fuse oneDtype
  rw [hw, any_true hne hall, hallb, hbias, hscale]
  rfl

/-- The biases of parts that all have one, or all none. -/
theorem joinedBias_alike (hne : parts ≠ []) (hparts : ∀ p ∈ parts, p.Shaped inn)
    (halike : (∀ p ∈ parts, p.bias.isSome = true) ∨ ∀ p ∈ parts, p.bias.isSome = false) :
    ∃ bias, joinedBias (parts.mapM Proj.bias) = .ok bias ∧ (∀ b, bias = some b → b.dims = [rowsAbove parts]) ∧
      ∀ front p back, parts = front ++ p :: back → ∀ r, r < p.out →
        biasAt bias (rowsAbove front + r) = biasAt p.bias r := by
  rcases halike with hall | hnone
  · obtain ⟨bs, b, hbs, hb, hdims, hentry⟩ := cat_biases hne hparts hall
    refine ⟨some b, ?_, fun b' hb' => ?_, hentry⟩
    · rw [hbs]
      change (ofOption "cat" (cat bs)).map some = _
      rw [hb]
      rfl
    · cases hb'
      exact hdims
  · have hmapM : parts.mapM Proj.bias = none := by
      obtain ⟨p, hp⟩ := List.exists_mem_of_ne_nil _ hne
      rw [← Option.not_isSome_iff_eq_none]
      intro hsome
      have hp' := Traverse.isSome_mapM_iff.1 hsome p hp
      rw [hnone p hp] at hp'
      exact Bool.false_ne_true hp'
    refine ⟨none, by rw [hmapM]; rfl, (fun b hb => by cases hb), fun front p back hsplit r _ => ?_⟩
    have hp := hnone p (hsplit ▸ List.mem_append_right _ List.mem_cons_self)
    rw [Option.isSome_eq_false_iff, Option.isNone_iff_eq_none] at hp
    rw [hp]
    rfl

/-- A scaled weight that has the rows of every part is what the joined layer multiplies by. -/
theorem joins_fp8 {w s : NdArray K} {bias : Option (NdArray K)} (hloads : ∀ p ∈ parts, p.form.Loads inn)
    (hall : ∀ p ∈ parts, p.isFp8 = true) (hw : w.dims = [rowsAbove parts, inn])
    (hwentry : ∀ front p back, parts = front ++ p :: back → ∀ r, r < p.out → ∀ l,
      w.entry [rowsAbove front + r, l] = p.weight.entry [r, l])
    (hform : ScaleForm (rowsAbove parts) inn s.dims)
    (hscale : ∀ front p back, parts = front ++ p :: back → ∀ r, r < p.out → ∀ l, l < inn →
      s.entry (scaleAt (rowsAbove parts) inn s.dims (rowsAbove front + r) l) =
        p.scale.entry (scaleAt p.out inn p.scale.dims r l))
    (hbiasDims : ∀ b, bias = some b → b.dims = [rowsAbove parts])
    (hbias : ∀ front p back, parts = front ++ p :: back → ∀ r, r < p.out →
      biasAt bias (rowsAbove front + r) = biasAt p.bias r) :
    ∃ t, fp8Weight w s = .ok t ∧ Joins inn parts t bias := by
  obtain ⟨t, ht, hdims, hentry⟩ := fp8Weight_form hw hform
  refine ⟨t, ht, hdims, hbiasDims, fun front p back hsplit r hr => ⟨fun l hl => ?_, hbias front p back hsplit r hr⟩⟩
  have hp : p ∈ parts := hsplit ▸ List.mem_append_right _ List.mem_cons_self
  have hrow : rowsAbove front + r < rowsAbove parts := by
    rw [rowsAbove_eq, rowsAbove_eq, hsplit, List.map_append, List.sum_append, List.map_cons, List.sum_cons]
    omega
  obtain ⟨dims, hscaleInv, -⟩ := (hloads p hp).scaled (hall p hp)
  rw [hentry _ l hrow hl, hwentry front p back hsplit r hr, hscale front p back hsplit r hr l hl]
  unfold Proj.eff
  rw [hall p hp, (Proj.scaleInv_eq hscaleInv).1]

/-- Lists of one scale for each row. -/
theorem scales_of_lists (hne : parts ≠ []) (h : ∀ p ∈ parts, p.form.scale = some [p.out]) :
    ∃ s, cat (parts.map Proj.scale) = some s ∧ ScaleForm (rowsAbove parts) inn s.dims ∧
      ∀ front p back, parts = front ++ p :: back → ∀ r, r < p.out → ∀ l, l < inn →
        s.entry (scaleAt (rowsAbove parts) inn s.dims (rowsAbove front + r) l) =
          p.scale.entry (scaleAt p.out inn p.scale.dims r l) := by
  obtain ⟨s, hs, hdims, hentry⟩ := cat_lists hne h
  refine ⟨s, hs, .inr (.inr (.inl hdims)), fun front p back hsplit r hr l _ => ?_⟩
  have hp : p ∈ parts := hsplit ▸ List.mem_append_right _ List.mem_cons_self
  have hat : ∀ n i, scaleAt n inn [n] i l = [i] := by
    intro n i
    change [if n = n then i else 0] = [i]
    rw [if_pos rfl]
  rw [hdims, (Proj.scaleInv_eq (h p hp)).2, hat, hat]
  exact hentry front p back hsplit r hr

/-- Grids with blocks of one height and one width. -/
theorem scales_of_grids {c h : Nat} (hne : parts ≠ []) (hloads : ∀ p ∈ parts, p.form.Loads inn)
    (hall : ∀ p ∈ parts, p.isFp8 = true) (hgrids : ∀ p ∈ parts, ∃ a, p.form.scale = some [a, c] ∧ p.out = a * h) :
    ∃ s, cat (parts.map Proj.scale) = some s ∧ ScaleForm (rowsAbove parts) inn s.dims ∧
      ∀ front p back, parts = front ++ p :: back → ∀ r, r < p.out → ∀ l, l < inn →
        s.entry (scaleAt (rowsAbove parts) inn s.dims (rowsAbove front + r) l) =
          p.scale.entry (scaleAt p.out inn p.scale.dims r l) := by
  obtain ⟨s, hs, hdims, hentry⟩ := cat_grids hne fun p hp => (hgrids p hp).imp fun a ha => ha.1
  have hpart : ∀ p ∈ parts, ∃ a, p.scale.dims = [a, c] ∧ p.out = a * h ∧ 0 < a ∧ 0 < h ∧ 0 < c ∧ c ∣ inn := by
    intro p hp
    obtain ⟨a, ha, hout⟩ := hgrids p hp
    obtain ⟨dims, hscale, hform⟩ := (hloads p hp).scaled (hall p hp)
    cases ha.symm.trans hscale
    have hrows : 0 < p.out := (hloads p hp).rows
    rw [hout] at hrows
    rcases hform with hform | hform | hform | ⟨a', c', heq, -, -, hc, hin⟩
    · cases hform
    · cases hform
    · cases hform
    · cases heq
      exact ⟨a, (Proj.scaleInv_eq ha).2, hout, Nat.pos_of_mul_pos_right hrows, Nat.pos_of_mul_pos_left hrows, hc, hin⟩
  obtain ⟨p₀, hp₀⟩ := List.exists_mem_of_ne_nil _ hne
  obtain ⟨a₀, -, -, -, hh, hc, hin⟩ := hpart p₀ hp₀
  have hrows : ∀ front : List (Proj K), (∀ p ∈ front, p ∈ parts) →
      rowsAbove front = rows (front.map Proj.scale) * h :=
    fun front hfront => rows_of_height fun p hp => hgrids p (hfront p hp)
  have htotal := hrows parts fun _ h => h
  have hpos : 0 < rows (parts.map Proj.scale) := by
    have hout : 0 < rowsAbove parts := by
      obtain ⟨front, back, rfl⟩ := List.append_of_mem hp₀
      rw [rowsAbove_eq, List.map_append, List.sum_append, List.map_cons, List.sum_cons]
      have hp : 0 < p₀.out := (hloads p₀ hp₀).rows
      omega
    rw [htotal] at hout
    exact Nat.pos_of_mul_pos_right hout
  refine ⟨s, hs, .inr (.inr (.inr ⟨_, c, hdims, hpos, ⟨h, htotal⟩, hc, hin⟩)), ?_⟩
  intro front p back hsplit r hr l hl
  have hp : p ∈ parts := hsplit ▸ List.mem_append_right _ List.mem_cons_self
  obtain ⟨a, ha, hout, hapos, -⟩ := hpart p hp
  have hfront := hrows front fun q hq => hsplit ▸ List.mem_append_left _ hq
  have hblock : r / h < a := Nat.div_lt_of_lt_mul (by rw [Nat.mul_comm, ← hout]; exact hr)
  rw [hdims, ha]
  change s.entry [(rowsAbove front + r) / (rowsAbove parts / rows (parts.map Proj.scale)), l / (inn / c)] =
    p.scale.entry [r / (p.out / a), l / (inn / c)]
  rw [htotal, Nat.mul_div_cancel_left _ hpos, hout, Nat.mul_div_cancel_left _ hapos, hfront,
    Nat.mul_comm _ h, Nat.mul_add_div hh]
  exact hentry front p back hsplit a ha _ hblock _

theorem fuse_joins (missing : String) (hne : parts ≠ []) (hparts : ∀ p ∈ parts, p.Shaped inn)
    (hloads : ∀ p ∈ parts, p.form.Loads inn) (hfusable : Fusable (parts.map Proj.form)) :
    ∃ l w bias, fuse missing parts (parts.mapM Proj.bias) = .ok l ∧ Joins inn parts w bias ∧
      ∀ x, l.forward x = (do
        let weightT ← ofOption "t" w.transpose
        matmulWithBias x weightT bias) := by
  obtain ⟨hbiases, hscales⟩ := hfusable
  simp only [List.forall_mem_map] at hbiases hscales
  obtain ⟨w, hw, hwdims, hwentry⟩ := cat_weights hne hparts
  obtain ⟨bias, hbias, hbdims, hbentry⟩ := joinedBias_alike hne hparts hbiases
  rcases hscales with hfloat | ⟨hfp8, halike⟩
  · obtain ⟨wT, hwT, -, -⟩ := transpose_two hwdims
    refine ⟨.float wT bias, w, bias, ?_, ⟨hwdims, hbdims, ?_⟩, fun x => ?_⟩
    · rw [fuse_float hw hbias hfloat]
      unfold AnyLinear.fromWeightWithScaleInv
      rw [hwT]
      rfl
    · intro front p back hsplit r hr
      refine ⟨fun l _ => ?_, hbentry front p back hsplit r hr⟩
      unfold Proj.eff
      have hp : p.isFp8 = false := hfloat p (hsplit ▸ List.mem_append_right _ List.mem_cons_self)
      rw [hp]
      exact hwentry front p back hsplit r hr l
    · rw [hwT]
      rfl
  · have hsome : ∀ p ∈ parts, ∃ dims, p.form.scale = some dims := by
      intro p hp
      obtain ⟨dims, hdims, -⟩ := (hloads p hp).scaled (hfp8 p hp)
      exact ⟨dims, hdims⟩
    obtain ⟨s, hs, hform, hsentry⟩ : ∃ s, cat (parts.map Proj.scale) = some s ∧
        ScaleForm (rowsAbove parts) inn s.dims ∧
        ∀ front p back, parts = front ++ p :: back → ∀ r, r < p.out → ∀ l, l < inn →
          s.entry (scaleAt (rowsAbove parts) inn s.dims (rowsAbove front + r) l) =
            p.scale.entry (scaleAt p.out inn p.scale.dims r l) := by
      rcases halike with hlists | ⟨c, h, hgrids⟩
      · exact scales_of_lists hne fun p hp => hlists _ (List.mem_map_of_mem hp)
      · exact scales_of_grids hne hloads hfp8 fun p hp => hgrids _ (List.mem_map_of_mem hp)
    obtain ⟨t, ht, hjoins⟩ := joins_fp8 hloads hfp8 hwdims hwentry hform hsentry hbdims hbentry
    refine ⟨.fp8 w (some s) bias, t, bias, fuse_fp8 hne hw hbias hfp8 (mapM_scales hsome) hs, hjoins, fun x => ?_⟩
    change (fp8Weight w s >>= _) = _
    rw [ht]
    rfl

end Join

/-! ## The cuts -/

/-- Every part of the forms is found again: the parts join, and the cuts of the joined forward are the forwards
of the parts. -/
def Faithful (K : Type) [Field K] (inn : Nat) (forms : List Form) (join : List (Proj K) → Except String (AnyLinear K)) :
    Prop :=
  ∀ parts : List (Proj K), parts.map Proj.form = forms → (∀ p ∈ parts, p.Shaped inn) →
    ∀ (x : NdArray K) (lead : List Nat), lead ≠ [] → x.dims = lead ++ [inn] →
      ∃ l out ys zs, join parts = .ok l ∧ l.forward x = .ok out ∧ cuts out 0 (forms.map Form.out) = .ok ys ∧
        parts.mapM (fun p => p.alone x) = .ok zs ∧ List.Forall₂ Same ys zs

section Cuts

variable {inn : Nat} {lead : List Nat} {x out : NdArray K}

omit [Field K] in
/-- The cut of a width is behind the widths before it. -/
theorem cuts_at {start width : Nat} {front back : List Nat} {ys : List (NdArray K)}
    (h : cuts out start (front ++ width :: back) = .ok ys) :
    ∃ y, ys[front.length]? = some y ∧ out.narrowLast (start + front.sum) width = some y := by
  induction front generalizing start ys with
  | nil =>
      obtain ⟨y, hy, hrest⟩ := Traverse.bind_eq_ok.1 h
      obtain ⟨rest, -, heq⟩ := Traverse.bind_eq_ok.1 hrest
      cases heq
      refine ⟨y, rfl, ?_⟩
      change ofOption "narrow" (out.narrowLast start width) = .ok y at hy
      unfold ofOption at hy
      split at hy
      · cases hy
        assumption
      · cases hy
  | cons w front ih =>
      obtain ⟨y, -, hrest⟩ := Traverse.bind_eq_ok.1 h
      obtain ⟨rest, hcuts, heq⟩ := Traverse.bind_eq_ok.1 hrest
      cases heq
      obtain ⟨u, hu, hnarrow⟩ := ih hcuts
      refine ⟨u, hu, ?_⟩
      rw [List.sum_cons, ← Nat.add_assoc]
      exact hnarrow

omit [Field K] in
theorem same_of_snoc {t u : NdArray K} {n : Nat} (ht : t.dims = lead ++ [n]) (hu : u.dims = lead ++ [n])
    (h : ∀ idx i, InDims lead idx → i < n → t.entry (idx ++ [i]) = u.entry (idx ++ [i])) : Same t u := by
  refine ⟨ht.trans hu.symm, fun idx hidx => ?_⟩
  rw [ht] at hidx
  obtain ⟨is, i, rfl, his, hi⟩ := exists_of_inDims_snoc hidx
  exact h is i his hi

/-- The cuts of a product of joined rows are the products of the rows of each part. -/
theorem cuts_joined {parts : List (Proj K)} {w : NdArray K} {bias : Option (NdArray K)}
    (hparts : ∀ p ∈ parts, p.Shaped inn) (hloads : ∀ p ∈ parts, p.form.Loads inn) (hjoins : Joins inn parts w bias)
    (hx : x.dims = lead ++ [inn]) (hlead : lead ≠ []) (hdims : out.dims = lead ++ [rowsAbove parts])
    (hentry : ∀ idx o, InDims lead idx → o < rowsAbove parts →
      out.entry (idx ++ [o]) = (dot x inn idx fun l => w.entry [o, l]) + biasAt bias o) (front back : List (Proj K))
    (hsplit : parts = front ++ back) :
    ∃ ys zs, cuts out (rowsAbove front) (back.map Proj.out) = .ok ys ∧ back.mapM (fun p => p.alone x) = .ok zs ∧
      List.Forall₂ Same ys zs := by
  induction back generalizing front with
  | nil => exact ⟨[], [], rfl, rfl, .nil⟩
  | cons p back ih =>
      have hp : p ∈ parts := hsplit ▸ List.mem_append_right _ List.mem_cons_self
      have htotal : rowsAbove parts = rowsAbove front + p.out + rowsAbove back := by
        rw [hsplit, rowsAbove_eq, rowsAbove_eq, rowsAbove_eq, List.map_append, List.sum_append, List.map_cons,
          List.sum_cons, Nat.add_assoc]
      obtain ⟨z, hz, hzdims, hzentry⟩ := alone_spec (hparts p hp) (hloads p hp) hx hlead
      obtain ⟨y, hy, hydims, hyentry⟩ := narrowLast_eq (rowsAbove front) p.out hdims (by omega)
      have hnext : parts = (front ++ [p]) ++ back := by rw [hsplit, List.append_assoc]; rfl
      obtain ⟨ys, zs, hys, hzs, hall⟩ := ih (front ++ [p]) hnext
      have habove : rowsAbove (front ++ [p]) = rowsAbove front + p.out := by
        rw [rowsAbove_eq, rowsAbove_eq, List.map_append, List.sum_append]
        rfl
      rw [habove] at hys
      refine ⟨y :: ys, z :: zs, ?_, ?_, .cons (same_of_snoc hydims hzdims fun idx i hidx hi => ?_) hall⟩
      · rw [List.map_cons, cuts, hy]
        change (cuts out (rowsAbove front + p.out) (back.map Proj.out) >>= _) = _
        rw [hys]
        rfl
      · rw [List.mapM_cons, hz, hzs]
        rfl
      · obtain ⟨hrow, hbias⟩ := hjoins.row front p back hsplit i hi
        rw [hyentry, Nat.add_comm i, hentry idx _ hidx (by omega), hzentry idx i hidx hi, dot_congr hrow, hbias]

end Cuts

theorem faithful_of_fusable {inn : Nat} {forms : List Form} {missing : String} (hne : forms ≠ [])
    (hloads : ∀ f ∈ forms, f.Loads inn) (hfusable : Fusable forms) :
    Faithful K inn forms fun parts => fuse missing parts (parts.mapM Proj.bias) := by
  rintro parts rfl hparts x lead hlead hx
  have hne' : parts ≠ [] := fun h => hne (by rw [h]; rfl)
  have hloads' : ∀ p ∈ parts, p.form.Loads inn := fun p hp => hloads _ (List.mem_map_of_mem hp)
  obtain ⟨l, w, bias, hl, hjoins, hforward⟩ := fuse_joins missing hne' hparts hloads' hfusable
  obtain ⟨out, hout, hdims, hentry⟩ := forward_spec hjoins.weightDims hforward hx hlead hjoins.biasDims
  obtain ⟨ys, zs, hys, hzs, hall⟩ := cuts_joined hparts hloads' hjoins hx hlead hdims hentry [] parts rfl
  refine ⟨l, out, ys, zs, hl, hout, ?_, hzs, hall⟩
  rw [List.map_map]
  exact hys

/-! ## What cannot be joined -/

/-- A projection of a form, from the entries of its weight, its scale and its bias. -/
def sample (inn : Nat) (f : Form) (w s b : List Nat → K) : Proj K where
  weight := ⟨[f.out, inn], w⟩
  isFp8 := f.isFp8
  scaleInv := f.scale.map fun dims => ⟨dims, s⟩
  bias := if f.hasBias then some ⟨[f.out], b⟩ else none

section Sample

variable {inn : Nat}

omit [Field K] in
@[simp] theorem sample_form (f : Form) (w s b : List Nat → K) : (sample inn f w s b).form = f := by
  obtain ⟨out, isFp8, scale, hasBias⟩ := f
  unfold sample Proj.form Proj.out
  cases scale <;> cases hasBias <;> rfl

omit [Field K] in
theorem sample_shaped (f : Form) (w s b : List Nat → K) : (sample inn f w s b).Shaped inn where
  weight := rfl
  bias c hc := by
    unfold sample at hc
    change (if f.hasBias then some _ else none) = some c at hc
    split at hc
    · cases hc
      rfl
    · cases hc

theorem matmulRows_zero {x wT y : NdArray K} (hx : ∀ idx, x.entry idx = 0) (h : matmulRows x wT = .ok y) (idx : List Nat) :
    y.entry idx = 0 := by
  have hzero : ∀ {t o : NdArray K}, (∀ idx, t.entry idx = 0) → t.matmul wT = some o → ∀ idx, o.entry idx = 0 := by
    intro t o ht ho idx
    unfold matmul at ho
    split at ho
    · split at ho
      · cases ho
        change ∑ l ∈ Finset.range _, t.entry [idx.headD 0, l] * wT.entry [l, idx.getLastD 0] = 0
        refine Finset.sum_eq_zero fun l _ => ?_
        rw [ht, zero_mul]
      · cases ho
    · cases ho
  have hreshape : ∀ {t u : NdArray K} {dims : List Nat}, (∀ idx, t.entry idx = 0) → t.reshape dims = some u →
      ∀ idx, u.entry idx = 0 := by
    intro t u dims ht hu idx
    unfold reshape at hu
    split at hu
    · cases hu
      exact ht _
    · cases hu
  have hoption : ∀ {msg : String} {o : Option (NdArray K)} {t : NdArray K}, ofOption msg o = .ok t → o = some t := by
    intro msg o t ho
    unfold ofOption at ho
    split at ho
    · cases ho
      rfl
    · cases ho
  unfold matmulRows at h
  split at h
  · obtain ⟨x2, hx2, hrest⟩ := Traverse.bind_eq_ok.1 h
    obtain ⟨o, ho, hy⟩ := Traverse.bind_eq_ok.1 hrest
    exact hreshape (hzero (hreshape hx (hoption hx2)) (hoption ho)) (hoption hy) idx
  · exact hzero hx (hoption h) idx

/-- Of nothing, a layer without a bias makes nothing. -/
theorem forward_zero {l : AnyLinear K} {x y : NdArray K} (hx : ∀ idx, x.entry idx = 0)
    (hbias : ∃ isFp8 w s, AnyLinear.fromWeightWithScaleInv isFp8 w s none = .ok l) (h : l.forward x = .ok y)
    (idx : List Nat) : y.entry idx = 0 := by
  have hnone : ∀ {wT : NdArray K}, matmulWithBias x wT none = .ok y → y.entry idx = 0 := by
    intro wT hm
    obtain ⟨m, hm, heq⟩ := Traverse.bind_eq_ok.1 hm
    cases heq
    exact matmulRows_zero hx hm idx
  obtain ⟨isFp8, w, s, hl⟩ := hbias
  unfold AnyLinear.fromWeightWithScaleInv at hl
  split at hl
  · cases hl
    unfold AnyLinear.forward at h
    obtain ⟨scaled, -, hrest⟩ := Traverse.bind_eq_ok.1 h
    obtain ⟨wT, -, hm⟩ := Traverse.bind_eq_ok.1 hrest
    exact hnone hm
  · obtain ⟨wT, -, heq⟩ := Traverse.bind_eq_ok.1 hl
    cases heq
    exact hnone h

end Sample

section Refuted

variable {inn : Nat} {forms : List Form} {missing : String}

/-- What is known of a part whose join is faithful: its cut is its forward. -/
theorem Faithful.cut {join : List (Proj K) → Except String (AnyLinear K)} (h : Faithful K inn forms join)
    {front back : List (Proj K)} {p : Proj K} (hforms : (front ++ p :: back).map Proj.form = forms)
    (hparts : ∀ q ∈ front ++ p :: back, q.Shaped inn) {x : NdArray K} {lead : List Nat} (hlead : lead ≠ [])
    (hx : x.dims = lead ++ [inn]) :
    ∃ l out y z, join (front ++ p :: back) = .ok l ∧ l.forward x = .ok out ∧
      out.narrowLast (rowsAbove front) p.out = some y ∧ p.alone x = .ok z ∧ Same y z := by
  obtain ⟨l, out, ys, zs, hl, hout, hys, hzs, hall⟩ := h _ hforms hparts x lead hlead hx
  have hwidths : forms.map Form.out = front.map Proj.out ++ p.out :: back.map Proj.out := by
    rw [← hforms, List.map_map, List.map_append]
    rfl
  rw [hwidths] at hys
  obtain ⟨y, hy, hnarrow⟩ := cuts_at hys
  have hpos : (front ++ p :: back)[front.length]? = some p := by
    rw [List.getElem?_append_right (Nat.le_refl _), Nat.sub_self]
    rfl
  obtain ⟨z, hz, halone⟩ := Traverse.getElem?_of_mapM hzs hpos
  rw [List.length_map] at hy
  obtain ⟨hlt, hget⟩ := List.getElem?_eq_some_iff.1 hy
  obtain ⟨hlt', hget'⟩ := List.getElem?_eq_some_iff.1 hz
  have hsame := (List.forall₂_iff_get.1 hall).2 front.length hlt hlt'
  refine ⟨l, out, y, z, hl, hout, ?_, halone, ?_⟩
  · rw [rowsAbove_eq]
    rw [Nat.zero_add] at hnarrow
    exact hnarrow
  · change Same ys[front.length] zs[front.length] at hsame
    rw [hget, hget'] at hsame
    exact hsame

/-- Samples of forms, one of them with a scale of its own. -/
def samples (inn : Nat) (fs : List Form) (w s b : List Nat → K) : List (Proj K) := fs.map fun f => sample inn f w s b

omit [Field K] in
theorem samples_out (fs : List Form) (w s b : List Nat → K) : (samples inn fs w s b).map Proj.out = fs.map Form.out := by
  unfold samples
  rw [List.map_map]
  rfl

omit [Field K] in
theorem samples_form (fs : List Form) (w s b : List Nat → K) : (samples inn fs w s b).map Proj.form = fs := by
  unfold samples
  rw [List.map_map]
  exact (List.map_congr_left fun f _ => sample_form f w s b).trans (List.map_id fs)

theorem Faithful.sampled {join : List (Proj K) → Except String (AnyLinear K)} {front back : List Form} {f : Form}
    (h : Faithful K inn (front ++ f :: back) join) (w s s' b : List Nat → K) {x : NdArray K} (hx : x.dims = [1, inn]) :
    ∃ l out y z, join (samples inn front w s b ++ sample inn f w s' b :: samples inn back w s b) = .ok l ∧
      l.forward x = .ok out ∧ out.narrowLast (front.map Form.out).sum f.out = some y ∧
      (sample inn f w s' b).alone x = .ok z ∧ Same y z := by
  have hforms : (samples inn front w s b ++ sample inn f w s' b :: samples inn back w s b).map Proj.form =
      front ++ f :: back := by
    rw [List.map_append, List.map_cons, samples_form, samples_form, sample_form]
  have hparts : ∀ q ∈ samples inn front w s b ++ sample inn f w s' b :: samples inn back w s b, q.Shaped inn := by
    intro q hq
    rcases List.mem_append.1 hq with hq | hq
    · obtain ⟨g, -, rfl⟩ := List.mem_map.1 hq
      exact sample_shaped g w s b
    · rcases List.mem_cons.1 hq with rfl | hq
      · exact sample_shaped f w s' b
      · obtain ⟨g, -, rfl⟩ := List.mem_map.1 hq
        exact sample_shaped g w s b
  obtain ⟨l, out, y, z, hl, hout, hy, hz, hsame⟩ := h.cut hforms hparts (List.cons_ne_nil 1 []) hx
  rw [rowsAbove_eq, samples_out] at hy
  exact ⟨l, out, y, z, hl, hout, hy, hz, hsame⟩

/-- The forward of a part, where the cut has it. -/
theorem sampled_entry {f : Form} (hloads : f.Loads inn) {w s b : List Nat → K} {x out y z : NdArray K} {start : Nat}
    (hx : x.dims = [1, inn]) (hy : out.narrowLast start f.out = some y) (hz : (sample inn f w s b).alone x = .ok z)
    (hsame : Same y z) {r : Nat} (hr : r < f.out) :
    out.entry [0, r + start] = dot x inn [0] ((sample inn f w s b).eff inn r) + biasAt (sample inn f w s b).bias r := by
  have hloads' : (sample inn f w s b).form.Loads inn := by
    rw [sample_form]
    exact hloads
  obtain ⟨z', hz', hdims, hentry⟩ :=
    alone_spec (sample_shaped f w s b) hloads' (show x.dims = [1] ++ [inn] from hx) (List.cons_ne_nil 1 [])
  cases hz.symm.trans hz'
  have hin : InDims y.dims [0, r] := by
    rw [hsame.1, hdims]
    exact ⟨Nat.one_pos, hr, trivial⟩
  have hcut := narrowLast_entry hy [0] r
  change y.entry [0, r] = out.entry [0, r + start] at hcut
  rw [← hcut, hsame.2 _ hin]
  exact hentry [0] r ⟨Nat.one_pos, trivial⟩ hr

/-- Where one part has a bias and one has none, the bias is dropped. -/
theorem biases_of_faithful (hloads : ∀ f ∈ forms, f.Loads inn)
    (h : Faithful K inn forms fun parts => fuse missing parts (parts.mapM Proj.bias)) :
    (∀ f ∈ forms, f.hasBias = true) ∨ ∀ f ∈ forms, f.hasBias = false := by
  by_contra hnot
  push Not at hnot
  obtain ⟨⟨f₀, hf₀, hno⟩, f, hf, hhas⟩ := hnot
  have hno : f₀.hasBias = false := Bool.eq_false_iff.2 hno
  have hhas : f.hasBias = true := Bool.eq_true_of_not_eq_false hhas
  obtain ⟨front, back, rfl⟩ := List.append_of_mem hf
  obtain ⟨l, out, y, z, hl, hout, hy, hz, hsame⟩ :=
    h.sampled (fun _ => 0) (fun _ => 0) (fun _ => 0) (fun _ => 1) (x := ⟨[1, inn], fun _ => 0⟩) rfl
  have hentry := sampled_entry (hloads f hf) rfl hy hz hsame (hloads f hf).rows
  have hdrop : (samples inn front (fun _ => (0 : K)) (fun _ => 0) (fun _ => 1) ++
      sample inn f (fun _ => 0) (fun _ => 0) (fun _ => 1) ::
        samples inn back (fun _ => 0) (fun _ => 0) fun _ => 1).mapM Proj.bias = none := by
    rw [← Option.not_isSome_iff_eq_none]
    intro hsome
    have hall := Traverse.isSome_mapM_iff.1 hsome
    have hmem : sample inn f₀ (fun _ => (0 : K)) (fun _ => 0) (fun _ => 1) ∈
        samples inn front (fun _ => (0 : K)) (fun _ => 0) (fun _ => 1) ++
          sample inn f (fun _ => 0) (fun _ => 0) (fun _ => 1) ::
            samples inn back (fun _ => 0) (fun _ => 0) fun _ => 1 := by
      rcases List.mem_append.1 hf₀ with hmem | hmem
      · exact List.mem_append_left _ (List.mem_map_of_mem hmem)
      · rcases List.mem_cons.1 hmem with rfl | hmem
        · exact List.mem_append_right _ List.mem_cons_self
        · exact List.mem_append_right _ (List.mem_cons_of_mem _ (List.mem_map_of_mem hmem))
    have hbias := hall _ hmem
    unfold sample at hbias
    rw [hno] at hbias
    exact Bool.false_ne_true hbias
  change fuse missing _ (List.mapM Proj.bias _) = .ok l at hl
  rw [hdrop] at hl
  obtain ⟨w, -, hrest⟩ := Traverse.bind_eq_ok.1 hl
  obtain ⟨-, -, hrest⟩ := Traverse.bind_eq_ok.1 hrest
  obtain ⟨bias, hbias, hrest⟩ := Traverse.bind_eq_ok.1 hrest
  obtain ⟨s, -, hrest⟩ := Traverse.bind_eq_ok.1 hrest
  cases hbias
  have hzero := forward_zero (fun _ => rfl) ⟨_, _, _, hrest⟩ hout
  have hdot : dot (⟨[1, inn], fun _ => 0⟩ : NdArray K) inn [0]
      ((sample inn f (fun _ => 0) (fun _ => 0) fun _ => 1).eff inn 0) = 0 :=
    Finset.sum_eq_zero fun l _ => zero_mul _
  have hone : biasAt (sample inn f (fun _ => (0 : K)) (fun _ => 0) fun _ => 1).bias 0 = 1 := by
    unfold sample
    rw [hhas]
    rfl
  rw [hzero, hdot, hone, zero_add] at hentry
  exact zero_ne_one hentry

theorem ok_of_ofOption {α : Type} {msg : String} {o : Option α} {a : α} (h : ofOption msg o = .ok a) : o = some a := by
  unfold ofOption at h
  split at h
  · cases h
    rfl
  · cases h

/-- What a join of FP8 parts is made of. -/
theorem fuse_fp8_inv {parts : List (Proj K)} {biases : Option (List (NdArray K))} {l : AnyLinear K} (hne : parts ≠ [])
    (hall : ∀ p ∈ parts, p.isFp8 = true) (hsome : ∀ p ∈ parts, ∃ dims, p.form.scale = some dims)
    (h : fuse missing parts biases = .ok l) :
    ∃ w s bias, cat (parts.map Proj.weight) = some w ∧ cat (parts.map Proj.scale) = some s ∧
      joinedBias biases = .ok bias ∧ l = .fp8 w (some s) bias := by
  obtain ⟨w, hw, hrest⟩ := Traverse.bind_eq_ok.1 h
  obtain ⟨-, -, hrest⟩ := Traverse.bind_eq_ok.1 hrest
  obtain ⟨bias, hbias, hrest⟩ := Traverse.bind_eq_ok.1 hrest
  obtain ⟨scale, hscale, hrest⟩ := Traverse.bind_eq_ok.1 hrest
  unfold joinedScale at hscale
  rw [any_true hne hall, if_pos rfl, mapM_scales hsome] at hscale
  rw [any_true hne hall] at hrest
  change (ofOption "cat" (cat (parts.map Proj.scale))).map some = _ at hscale
  cases hcat : cat (parts.map Proj.scale) with
  | none =>
      rw [hcat] at hscale
      cases hscale
  | some s =>
      rw [hcat] at hscale
      cases hscale
      cases hrest
      exact ⟨w, s, bias, ok_of_ofOption hw, rfl, hbias, rfl⟩

/-- The dtypes of parts that join are one. -/
theorem dtype_of_fuse {parts : List (Proj K)} {biases : Option (List (NdArray K))} {l : AnyLinear K}
    (h : fuse missing parts biases = .ok l) : (∀ p ∈ parts, p.isFp8 = false) ∨ ∀ p ∈ parts, p.isFp8 = true := by
  obtain ⟨w, -, hrest⟩ := Traverse.bind_eq_ok.1 h
  obtain ⟨u, hdtype, -⟩ := Traverse.bind_eq_ok.1 hrest
  by_contra hnot
  push Not at hnot
  obtain ⟨⟨p, hp, htrue⟩, q, hq, hfalse⟩ := hnot
  have hany : parts.any Proj.isFp8 = true := List.any_eq_true.2 ⟨p, hp, Bool.eq_true_of_not_eq_false htrue⟩
  have hall : parts.all Proj.isFp8 = false := List.all_eq_false.2 ⟨q, hq, hfalse⟩
  unfold oneDtype at hdtype
  rw [hany, hall] at hdtype
  cases hdtype

/-- Lists of the right length in sum, none of them too long, have the right length. -/
theorem all_eq_of_sum {α : Type} {f g : α → Nat} {as : List α} (hle : ∀ a ∈ as, f a ≤ g a)
    (hsum : (as.map g).sum ≤ (as.map f).sum) : ∀ a ∈ as, f a = g a := by
  induction as with
  | nil => exact fun a ha => absurd ha List.not_mem_nil
  | cons a as ih =>
      have hhead := hle a List.mem_cons_self
      have htail : (as.map f).sum ≤ (as.map g).sum := List.sum_le_sum fun b hb => hle b (List.mem_cons_of_mem _ hb)
      rw [List.map_cons, List.sum_cons, List.map_cons, List.sum_cons] at hsum
      intro b hb
      rcases List.mem_cons.1 hb with rfl | hb
      · omega
      · exact ih (fun c hc => hle c (List.mem_cons_of_mem _ hc)) (by omega) b hb

/-- Of parts of which one alone has an entry that is not zero, the stack has it where the part is. -/
theorem stackEntry_single {front back : List (NdArray K)} {t : NdArray K}
    (hfront : ∀ u ∈ front, ∀ idx, u.entry idx = 0) (hback : ∀ u ∈ back, ∀ idx, u.entry idx = 0) {i : Nat}
    {is : List Nat} (h : stackEntry (front ++ t :: back) i is ≠ 0) :
    ∃ r, i = rows front + r ∧ t.entry (r :: is) ≠ 0 := by
  have hzero : ∀ {ts : List (NdArray K)}, (∀ u ∈ ts, ∀ idx, u.entry idx = 0) → ∀ i, stackEntry ts i is = 0 := by
    intro ts
    induction ts with
    | nil => exact fun _ _ => rfl
    | cons u ts ih =>
        intro hall i
        unfold stackEntry
        split
        · exact hall u List.mem_cons_self _
        · exact ih (fun v hv => hall v (List.mem_cons_of_mem _ hv)) _
  induction front generalizing i with
  | nil =>
      rw [List.nil_append, stackEntry] at h
      split at h
      · exact ⟨i, (Nat.zero_add i).symm, h⟩
      · exact absurd (hzero hback _) h
  | cons u front ih =>
      rw [List.cons_append, stackEntry] at h
      split at h
      · exact absurd (hfront u List.mem_cons_self _) h
      · rename_i hge
        obtain ⟨r, hr, hentry⟩ := ih (fun v hv => hfront v (List.mem_cons_of_mem _ hv)) h
        refine ⟨r, ?_, hentry⟩
        rw [rows_cons]
        omega

/-- The sum of the lengths of several lists is more than one. -/
theorem sum_ge_length (ns : List Nat) (h : ∀ n ∈ ns, 0 < n) : ns.length ≤ ns.sum := by
  induction ns with
  | nil => exact Nat.le_refl 0
  | cons n ns ih =>
      have hn := h n List.mem_cons_self
      have hns := ih fun m hm => h m (List.mem_cons_of_mem _ hm)
      rw [List.length_cons, List.sum_cons]
      omega

/-- What `scaleForMul` makes of a list that is not one scale for each row, nor one scale, is nothing. -/
theorem list_of_fp8Weight {w s t : NdArray K} {out n : Nat} (hw : w.dims = [out, inn]) (hs : s.dims = [n])
    (h : fp8Weight w s = .ok t) : n = out ∨ n = 1 := by
  unfold fp8Weight scaleForMul at h
  rw [hw, hs] at h
  change ((if n = out then _ else _ : Except String (NdArray K)) >>= _) = _ at h
  by_cases hn : n = out
  · exact .inl hn
  · rw [if_neg hn] at h
    by_cases hone : n = 1
    · exact .inr hone
    · rw [if_neg hone] at h
      cases h

/-- A grid of several rows that is put on several rows divides them. -/
theorem dvd_of_fp8Weight {w s t : NdArray K} {out a c : Nat} (hw : w.dims = [out, inn]) (hs : s.dims = [a, c])
    (hout : 1 < out) (ha : 1 < a) (h : fp8Weight w s = .ok t) : a ∣ out := by
  rw [fp8Weight_eq hw (.inr ⟨a, c, hs⟩)] at h
  cases hshape : broadcastShape w.dims s.dims with
  | some dims =>
      rw [hw, hs, broadcastShape_two] at hshape
      obtain ⟨d, -, hrest⟩ := Option.bind_eq_some_iff.1 hshape
      obtain ⟨e, he, -⟩ := Option.map_eq_some_iff.1 hrest
      rcases broadcastDim_some he with ⟨rfl, -⟩ | ⟨rfl, -⟩ | ⟨rfl, -⟩
      · exact Nat.dvd_refl _
      · exact absurd hout (Nat.lt_irrefl 1)
      · exact absurd ha (Nat.lt_irrefl 1)
  | none =>
      unfold applyWeightScaleInv applyScaleInv broadcastMul broadcastOp at h
      rw [hshape, hw, hs] at h
      change (if _ then _ else _) = _ at h
      split at h
      · cases h
      · rename_i hgrid
        push Not at hgrid
        exact Nat.dvd_of_mod_eq_zero hgrid.2.2.1

/-- The rows of a grid. -/
def Form.gridRows (f : Form) : Nat := (f.scale.getD []).headD 0

/-- FP8 forms whose scales are grids of one width. -/
structure Grids (inn c : Nat) (forms : List Form) : Prop where
  isFp8 : ∀ f ∈ forms, f.isFp8 = true
  scale : ∀ f ∈ forms, f.scale = some [f.gridRows, c]
  rows : ∀ f ∈ forms, 0 < f.gridRows ∧ f.gridRows ∣ f.out
  columns : 0 < c ∧ c ∣ inn

/-- The input that reads the first column of a weight. -/
def firstUnit (inn : Nat) : NdArray K := ⟨[1, inn], fun idx => if idx = [0, 0] then 1 else 0⟩

theorem dot_firstUnit (hinn : 0 < inn) (column : Nat → K) : dot (firstUnit inn) inn [0] column = column 0 := by
  unfold dot firstUnit
  rw [Finset.sum_eq_single 0]
  · change (if [0, 0] = [0, 0] then (1 : K) else 0) * column 0 = column 0
    rw [if_pos rfl, one_mul]
  · intro l _ hl
    change (if [0, l] = [0, 0] then (1 : K) else 0) * column l = 0
    rw [if_neg (by simpa using hl), zero_mul]
  · intro hno
    exact absurd (Finset.mem_range.2 hinn) hno

section Row

variable {front back : List Form} {f : Form} {c : Nat}

/-- Parts of weights of ones, of which one alone has a scale that is not zero, at one row of its grid. -/
def marked (inn : Nat) (front back : List Form) (f : Form) (row : Nat) : List (Proj K) :=
  samples inn front (fun _ => 1) (fun _ => 0) (fun _ => 0) ++
    sample inn f (fun _ => 1) (fun idx => if idx = [row, 0] then 1 else 0) (fun _ => 0) ::
      samples inn back (fun _ => 1) (fun _ => 0) fun _ => 0

omit [Field K] in
theorem forall_samples {P : Proj K → Prop} {fs gs : List Form} {p : Proj K} {w s b : List Nat → K} (hp : P p)
    (hfs : ∀ g ∈ fs ++ gs, P (sample inn g w s b)) :
    ∀ q ∈ samples inn fs w s b ++ p :: samples inn gs w s b, P q := by
  intro q hq
  rcases List.mem_append.1 hq with hq | hq
  · obtain ⟨g, hg, rfl⟩ := List.mem_map.1 hq
    exact hfs g (List.mem_append_left _ hg)
  · rcases List.mem_cons.1 hq with rfl | hq
    · exact hp
    · obtain ⟨g, hg, rfl⟩ := List.mem_map.1 hq
      exact hfs g (List.mem_append_right _ hg)

theorem marked_forall {row : Nat} {P : Form → Prop} (h : ∀ g ∈ front ++ f :: back, P g) :
    ∀ q ∈ (marked inn front back f row : List (Proj K)), P q.form ∧ q.Shaped inn := by
  refine forall_samples ⟨?_, sample_shaped f _ _ _⟩ fun g hg => ⟨?_, sample_shaped g _ _ _⟩
  · rw [sample_form]
    exact h f (List.mem_append_right _ List.mem_cons_self)
  · rw [sample_form]
    rcases List.mem_append.1 hg with hg | hg
    · exact h g (List.mem_append_left _ hg)
    · exact h g (List.mem_append_right _ (List.mem_cons_of_mem _ hg))

omit [Field K] in
theorem rows_samples {w s b : List Nat → K} {fs : List Form} (h : ∀ g ∈ fs, g.scale = some [g.gridRows, c]) :
    rows ((samples inn fs w s b).map Proj.scale) = (fs.map Form.gridRows).sum := by
  unfold rows samples
  rw [List.map_map, List.map_map]
  refine congrArg List.sum (List.map_congr_left fun g hg => ?_)
  have hscale : (sample inn g w s b).form.scale = some [g.gridRows, c] := by
    rw [sample_form]
    exact h g hg
  change (sample inn g w s b).scale.dims.headD 0 = _
  rw [(Proj.scaleInv_eq hscale).2]
  rfl

theorem marked_out {row : Nat} :
    rowsAbove (marked inn front back f row : List (Proj K)) = ((front ++ f :: back).map Form.out).sum := by
  unfold marked
  rw [rowsAbove_eq, List.map_append, List.map_cons, samples_out, samples_out, List.map_append, List.map_cons]
  rfl

theorem marked_rows {row : Nat} (h : ∀ g ∈ front ++ f :: back, g.scale = some [g.gridRows, c]) :
    rows ((marked inn front back f row : List (Proj K)).map Proj.scale) =
      ((front ++ f :: back).map Form.gridRows).sum := by
  have hf : (sample inn f (fun _ => (1 : K)) (fun idx => if idx = [row, 0] then 1 else 0) fun _ => 0).form.scale =
      some [f.gridRows, c] := by
    rw [sample_form]
    exact h f (List.mem_append_right _ List.mem_cons_self)
  unfold marked
  rw [List.map_append, List.map_cons, rows_append, rows_cons, rows_samples fun g hg => h g (List.mem_append_left _ hg),
    rows_samples fun g hg => h g (List.mem_append_right _ (List.mem_cons_of_mem _ hg)), (Proj.scaleInv_eq hf).2,
    List.map_append, List.sum_append, List.map_cons, List.sum_cons]
  rfl

/-- Where the joined grid has an entry that is not zero is the marked row of the part. -/
theorem marked_entry {row i : Nat} {s : NdArray K} (h : ∀ g ∈ front ++ f :: back, g.scale = some [g.gridRows, c])
    (hs : cat ((marked inn front back f row : List (Proj K)).map Proj.scale) = some s) (hne : s.entry [i, 0] ≠ 0) :
    i = (front.map Form.gridRows).sum + row := by
  have hzero : ∀ fs : List Form, (∀ g ∈ fs, g ∈ front ++ f :: back) →
      ∀ u ∈ (samples inn fs (fun _ => (1 : K)) (fun _ => 0) fun _ => 0).map Proj.scale, ∀ idx, u.entry idx = 0 := by
    intro fs hfs u hu idx
    obtain ⟨q, hq, rfl⟩ := List.mem_map.1 hu
    obtain ⟨g, hg, rfl⟩ := List.mem_map.1 hq
    unfold sample Proj.scale
    rw [h g (hfs g hg)]
    rfl
  rw [cat_entry hs] at hne
  unfold marked at hne
  rw [List.map_append, List.map_cons] at hne
  obtain ⟨r, rfl, hr⟩ := stackEntry_single (hzero front fun g hg => List.mem_append_left _ hg)
    (hzero back fun g hg => List.mem_append_right _ (List.mem_cons_of_mem _ hg)) hne
  rw [rows_samples fun g hg => h g (List.mem_append_left _ hg)]
  congr 1
  unfold sample Proj.scale at hr
  rw [h f (List.mem_append_right _ List.mem_cons_self)] at hr
  change (if [r, 0] = [row, 0] then (1 : K) else 0) ≠ 0 at hr
  split at hr
  · rename_i heq
    exact (List.cons.inj heq).1
  · exact absurd rfl hr

theorem Grids.sum_pos (h : Grids inn c (front ++ f :: back)) : 0 < ((front ++ f :: back).map Form.gridRows).sum := by
  have hge := sum_ge_length _ fun n hn => by
    obtain ⟨g, hg, rfl⟩ := List.mem_map.1 hn
    exact (h.rows g hg).1
  have hlen : 0 < ((front ++ f :: back).map Form.gridRows).length := by simp
  omega

/-- The marked part scales each row of the block of the marked row by one. -/
theorem marked_eff (hgrids : Grids inn c (front ++ f :: back)) {row r : Nat} (hrow : r / (f.out / f.gridRows) = row) :
    (sample inn f (fun _ => (1 : K)) (fun idx => if idx = [row, 0] then 1 else 0) fun _ => 0).eff inn r 0 = 1 := by
  have hf : f ∈ front ++ f :: back := List.mem_append_right _ List.mem_cons_self
  unfold Proj.eff sample Proj.out
  rw [hgrids.isFp8 f hf, hgrids.scale f hf]
  change (1 : K) * (if [r / (f.out / f.gridRows), 0 / (inn / c)] = [row, 0] then 1 else 0) = 1
  rw [hrow, Nat.zero_div, if_pos rfl, one_mul]

/-- The layer of the marked parts reads, at a row of the marked part, the joined grid at the block of that row. -/
theorem marked_forward (hinn : 0 < inn) (hloads : ∀ g ∈ front ++ f :: back, g.Loads inn)
    (halike : (∀ g ∈ front ++ f :: back, g.hasBias = true) ∨ ∀ g ∈ front ++ f :: back, g.hasBias = false)
    (hgrids : Grids inn c (front ++ f :: back))
    (hdvd : ((front ++ f :: back).map Form.gridRows).sum ∣ ((front ++ f :: back).map Form.out).sum) {row r : Nat}
    (hr : r < f.out) {l : AnyLinear K} {out : NdArray K}
    (hl : fuse missing (marked inn front back f row) ((marked inn front back f row).mapM Proj.bias) = .ok l)
    (hout : l.forward (firstUnit inn) = .ok out) :
    ∃ (w : K) (s : NdArray K), cat ((marked inn front back f row).map Proj.scale) = some s ∧
      out.entry [0, r + (front.map Form.out).sum] =
        w * s.entry [(r + (front.map Form.out).sum) /
            (((front ++ f :: back).map Form.out).sum / ((front ++ f :: back).map Form.gridRows).sum), 0] +
          biasAt (sample inn f (fun _ => (1 : K)) (fun idx => if idx = [row, 0] then 1 else 0) fun _ => 0).bias r := by
  have hne : (marked inn front back f row : List (Proj K)) ≠ [] := by
    unfold marked
    exact List.append_ne_nil_of_right_ne_nil _ (List.cons_ne_nil _ _)
  have hshaped : ∀ q ∈ (marked inn front back f row : List (Proj K)), q.Shaped inn :=
    fun q hq => (marked_forall hloads q hq).2
  have hmarked : ∀ q ∈ (marked inn front back f row : List (Proj K)), q.form.scale = some [q.form.gridRows, c] :=
    fun q hq => (marked_forall hgrids.scale q hq).1
  -- the three joins, each with its height
  obtain ⟨w, s, bias, hw, hs, hbias, rfl⟩ := fuse_fp8_inv hne (fun q hq => (marked_forall hgrids.isFp8 q hq).1)
    (fun q hq => ⟨_, hmarked q hq⟩) hl
  obtain ⟨bias', hbias', hbdims, hbentry⟩ := joinedBias_alike hne hshaped
    (halike.imp (fun hall q hq => (marked_forall hall q hq).1) fun hall q hq => (marked_forall hall q hq).1)
  cases hbias.symm.trans hbias'
  obtain ⟨w', hw', hwdims, -⟩ := cat_weights hne hshaped
  cases hw.symm.trans hw'
  obtain ⟨s', hs', hsdims, -⟩ := cat_grids hne fun q hq => ⟨_, hmarked q hq⟩
  cases hs.symm.trans hs'
  rw [marked_rows hgrids.scale] at hsdims
  rw [marked_out] at hwdims hbdims
  have hform : ScaleForm ((front ++ f :: back).map Form.out).sum inn s.dims :=
    .inr (.inr (.inr ⟨_, c, hsdims, hgrids.sum_pos, hdvd, hgrids.columns⟩))
  obtain ⟨t, ht, htdims, htentry⟩ := fp8Weight_form hwdims hform
  have hforward : ∀ x, (AnyLinear.fp8 w (some s) bias).forward x = (do
      let weightT ← ofOption "t" t.transpose
      matmulWithBias x weightT bias) := by
    intro x
    change (fp8Weight w s >>= _) = _
    rw [ht]
    rfl
  obtain ⟨out', hout', -, houtentry⟩ := forward_spec htdims hforward
    (show (firstUnit inn : NdArray K).dims = [1] ++ [inn] from rfl) (List.cons_ne_nil 1 []) hbdims
  cases hout.symm.trans hout'
  have hrow : r + (front.map Form.out).sum < ((front ++ f :: back).map Form.out).sum := by
    rw [List.map_append, List.sum_append, List.map_cons, List.sum_cons]
    omega
  have hjoined := houtentry [0] _ ⟨Nat.one_pos, trivial⟩ hrow
  have habove := hbentry _ _ _ rfl r hr
  rw [rowsAbove_eq, samples_out, Nat.add_comm] at habove
  change out.entry [0, r + (front.map Form.out).sum] = _ at hjoined
  rw [habove, dot_firstUnit hinn, htentry _ 0 hrow hinn, hsdims] at hjoined
  change _ = _ * s.entry [_, 0 / (inn / c)] + _ at hjoined
  rw [Nat.zero_div] at hjoined
  exact ⟨_, s, hs, hjoined⟩

/-- The row of the joined grid that scales a row of a part is that of the part. -/
theorem row_of_faithful (hinn : 0 < inn) (hloads : ∀ g ∈ front ++ f :: back, g.Loads inn)
    (h : Faithful K inn (front ++ f :: back) fun parts => fuse missing parts (parts.mapM Proj.bias))
    (hgrids : Grids inn c (front ++ f :: back))
    (hdvd : ((front ++ f :: back).map Form.gridRows).sum ∣ ((front ++ f :: back).map Form.out).sum) {r : Nat}
    (hr : r < f.out) :
    (r + (front.map Form.out).sum) /
        (((front ++ f :: back).map Form.out).sum / ((front ++ f :: back).map Form.gridRows).sum) =
      (front.map Form.gridRows).sum + r / (f.out / f.gridRows) := by
  obtain ⟨l, out, y, z, hl, hout, hy, hz, hsame⟩ := h.sampled (fun _ => 1) (fun _ => 0)
    (fun idx => if idx = [r / (f.out / f.gridRows), 0] then 1 else 0) (fun _ => 0)
    (show (firstUnit inn : NdArray K).dims = [1, inn] from rfl)
  have hpart := sampled_entry (hloads f (List.mem_append_right _ List.mem_cons_self)) rfl hy hz hsame hr
  obtain ⟨w, s, hs, hjoined⟩ := marked_forward hinn hloads (biases_of_faithful hloads h) hgrids hdvd hr hl hout
  rw [hpart, dot_firstUnit hinn, marked_eff hgrids rfl] at hjoined
  have hone := add_right_cancel hjoined
  refine marked_entry hgrids.scale hs fun hzero => ?_
  rw [hzero, mul_zero] at hone
  exact one_ne_zero hone

end Row

/-- Grids that can be joined have blocks of one height. -/
theorem heights_of_faithful {c : Nat} (hinn : 0 < inn) (hloads : ∀ f ∈ forms, f.Loads inn)
    (h : Faithful K inn forms fun parts => fuse missing parts (parts.mapM Proj.bias)) (hgrids : Grids inn c forms)
    (hpos : 0 < (forms.map Form.gridRows).sum)
    (hdvd : (forms.map Form.gridRows).sum ∣ (forms.map Form.out).sum) :
    ∀ f ∈ forms, f.out = f.gridRows * ((forms.map Form.out).sum / (forms.map Form.gridRows).sum) := by
  have hle : ∀ f ∈ forms, f.out ≤ f.gridRows * ((forms.map Form.out).sum / (forms.map Form.gridRows).sum) := by
    intro f hf
    obtain ⟨hrows, height, hheight⟩ := hgrids.rows f hf
    have hquot : f.out / f.gridRows = height := Nat.div_eq_of_eq_mul_right hrows hheight
    by_contra hgt
    obtain ⟨front, back, rfl⟩ := List.append_of_mem hf
    have hout := (hloads f hf).rows
    have hlt : ((front ++ f :: back).map Form.out).sum / ((front ++ f :: back).map Form.gridRows).sum < height := by
      rw [hheight] at hgt
      exact Nat.lt_of_mul_lt_mul_left (Nat.not_le.1 hgt)
    have hlt' : ((front ++ f :: back).map Form.out).sum / ((front ++ f :: back).map Form.gridRows).sum < f.out := by
      refine Nat.lt_of_lt_of_le hlt ?_
      rw [hheight]
      exact Nat.le_mul_of_pos_left height hrows
    have hsum : f.out ≤ ((front ++ f :: back).map Form.out).sum := by
      rw [List.map_append, List.sum_append, List.map_cons, List.sum_cons]
      omega
    have hH : 0 < ((front ++ f :: back).map Form.out).sum / ((front ++ f :: back).map Form.gridRows).sum :=
      Nat.div_pos (Nat.le_of_dvd (Nat.lt_of_lt_of_le hout hsum) hdvd) hpos
    -- the first row of the part, and the one a block of the join below it
    have hfirst := row_of_faithful hinn hloads h hgrids hdvd hout
    have hsecond := row_of_faithful hinn hloads h hgrids hdvd hlt'
    rw [hquot, Nat.zero_div, Nat.zero_add] at hfirst
    rw [hquot, Nat.div_eq_of_lt hlt, Nat.add_div_left _ hH, hfirst] at hsecond
    omega
  refine all_eq_of_sum hle ?_
  rw [List.sum_map_mul_right, Nat.mul_div_cancel' hdvd]

theorem gridRows_of_dims {f : Form} {n : Nat} {tail : List Nat} (h : f.scale = some (n :: tail)) : f.gridRows = n := by
  unfold Form.gridRows
  rw [h]
  rfl

/-! ### The scales -/

/-- Every part has a scale of its own number of rows, and of the same columns if any. -/
def Scaled (inn : Nat) (forms : List Form) (tail : List Nat) : Prop :=
  ∀ f ∈ forms, f.scale = some (f.gridRows :: tail) ∧ ScaleForm f.out inn (f.gridRows :: tail)

theorem scaleForm_pos {out n : Nat} {tail : List Nat} (h : ScaleForm out inn (n :: tail)) (hout : 0 < out) : 0 < n := by
  rcases h with hform | hform | hform | ⟨a, c, hform, ha, -⟩
  · cases hform
  · rw [(List.cons.inj hform).1]
    exact Nat.one_pos
  · rw [(List.cons.inj hform).1]
    exact hout
  · rw [(List.cons.inj hform).1]
    exact ha

theorem scaleForm_list {out n : Nat} (h : ScaleForm out inn [n]) (hout : 0 < out) : n ≤ out := by
  rcases h with hform | hform | hform | ⟨a, c, hform, -⟩
  · cases hform
  · rw [(List.cons.inj hform).1]
    exact hout
  · exact Nat.le_of_eq (List.cons.inj hform).1
  · cases hform

theorem scaleForm_grid {out n c : Nat} {tail : List Nat} (h : ScaleForm out inn (n :: c :: tail)) :
    tail = [] ∧ 0 < c ∧ c ∣ inn ∧ n ∣ out := by
  rcases h with hform | hform | hform | ⟨a, c', hform, -, ha, hc, hcin⟩
  · cases hform
  · exact absurd (List.cons.inj hform).2 (List.cons_ne_nil c tail)
  · exact absurd (List.cons.inj hform).2 (List.cons_ne_nil c tail)
  · obtain ⟨hrow, hcols⟩ := List.cons.inj hform
    obtain ⟨rfl, rfl⟩ := List.cons.inj hcols
    exact ⟨rfl, hc, hcin, hrow ▸ ha⟩

/-- Several parts of at least one make more than one. -/
theorem one_lt_sum (hlen : 2 ≤ forms.length) (g : Form → Nat) (hg : ∀ f ∈ forms, 0 < g f) : 1 < (forms.map g).sum := by
  have hge := sum_ge_length (forms.map g) fun n hn => by
    obtain ⟨f, hf, rfl⟩ := List.mem_map.1 hn
    exact hg f hf
  rw [List.length_map] at hge
  omega

/-- The scale of a sample is that of its form. -/
theorem sample_scale {f : Form} {dims : List Nat} (h : f.scale = some dims) :
    (sample inn f (fun _ => (0 : K)) (fun _ => 0) fun _ => 0).scale.dims = dims := by
  have hq : (sample inn f (fun _ => (0 : K)) (fun _ => 0) fun _ => 0).form.scale = some dims := by
    rw [sample_form]
    exact h
  exact (Proj.scaleInv_eq hq).2

/-- What the scales of the samples have in common where they can be put together. -/
theorem scaled_of_cat (hscaled : ∀ f ∈ forms, ∃ dims, f.scale = some dims ∧ ScaleForm f.out inn dims) {s : NdArray K}
    (hs : cat ((samples inn forms (fun _ => 0) (fun _ => 0) fun _ => 0).map Proj.scale) = some s) :
    ∃ tail, Scaled inn forms tail ∧ (forms ≠ [] → s.dims = (forms.map Form.gridRows).sum :: tail) := by
  obtain ⟨tail, htail⟩ := cat_some hs
  have hrows : Scaled inn forms tail := by
    intro f hf
    obtain ⟨dims, hscale, hform⟩ := hscaled f hf
    obtain ⟨n, hn⟩ := htail _ (List.mem_map_of_mem (List.mem_map_of_mem hf))
    rw [sample_scale hscale] at hn
    subst hn
    rw [gridRows_of_dims hscale]
    exact ⟨hscale, hform⟩
  refine ⟨tail, hrows, fun hne => ?_⟩
  have hscales : (samples inn forms (fun _ => (0 : K)) (fun _ => 0) fun _ => 0).map Proj.scale ≠ [] :=
    fun hnil => hne (List.map_eq_nil_iff.1 (List.map_eq_nil_iff.1 hnil))
  have heq := cat_eq tail hscales htail
  rw [hs] at heq
  cases heq
  change rows _ :: tail = _
  congr 1
  unfold rows samples
  rw [List.map_map, List.map_map]
  refine congrArg List.sum (List.map_congr_left fun f hf => ?_)
  change (sample inn f (fun _ => (0 : K)) (fun _ => 0) fun _ => 0).scale.dims.headD 0 = _
  rw [sample_scale (hrows f hf).1]
  rfl

/-- One dtype, and for FP8 the scales put together and taken for the weights put together. -/
theorem joined_of_faithful (hlen : 2 ≤ forms.length) (hloads : ∀ f ∈ forms, f.Loads inn)
    (h : Faithful K inn forms fun parts => fuse missing parts (parts.mapM Proj.bias)) :
    (∀ f ∈ forms, f.isFp8 = false) ∨ (∀ f ∈ forms, f.isFp8 = true) ∧ ∃ (tail : List Nat) (w s t : NdArray K),
      Scaled inn forms tail ∧ w.dims = [(forms.map Form.out).sum, inn] ∧
        s.dims = (forms.map Form.gridRows).sum :: tail ∧ fp8Weight w s = .ok t := by
  have hshaped : ∀ q ∈ (samples inn forms (fun _ => 0) (fun _ => 0) (fun _ => 0) : List (Proj K)), q.Shaped inn := by
    intro q hq
    obtain ⟨g, -, rfl⟩ := List.mem_map.1 hq
    exact sample_shaped g _ _ _
  have hform : ∀ {P : Form → Prop}, (∀ q ∈ (samples inn forms (fun _ => 0) (fun _ => 0) (fun _ => 0) : List (Proj K)),
      P q.form) ↔ ∀ f ∈ forms, P f := by
    intro P
    rw [← List.forall_mem_map, samples_form]
  obtain ⟨l, out, -, -, hl, hout, -, -, -⟩ := h _ (samples_form forms (fun _ => 0) (fun _ => 0) fun _ => 0) hshaped
    (firstUnit inn) [1] (List.cons_ne_nil 1 []) rfl
  rcases dtype_of_fuse hl with hfloat | hfp8
  · exact .inl (hform.1 hfloat)
  have hfp8' : ∀ f ∈ forms, f.isFp8 = true := hform.1 hfp8
  have hne : forms ≠ [] := by
    rintro rfl
    exact absurd hlen (by decide)
  have hne' : (samples inn forms (fun _ => 0) (fun _ => 0) (fun _ => 0) : List (Proj K)) ≠ [] := by
    intro heq
    exact hne (List.map_eq_nil_iff.1 heq)
  have hscaled : ∀ f ∈ forms, ∃ dims, f.scale = some dims ∧ ScaleForm f.out inn dims :=
    fun f hf => (hloads f hf).scaled (hfp8' f hf)
  obtain ⟨w, s, bias, hw, hs, -, rfl⟩ := fuse_fp8_inv hne' hfp8
    (hform.2 fun f hf => (hscaled f hf).imp fun _ hd => hd.1) hl
  obtain ⟨tail, hrows, hsdims⟩ := scaled_of_cat hscaled hs
  obtain ⟨w', hw', hwdims, -⟩ := cat_weights hne' hshaped
  cases hw.symm.trans hw'
  rw [rowsAbove_eq, samples_out] at hwdims
  obtain ⟨t, ht, -⟩ := Traverse.bind_eq_ok.1 hout
  exact .inr ⟨hfp8', tail, w, s, t, hrows, hwdims, hsdims hne, ht⟩

/-- Parts of which the joined forward is that of the parts have one dtype, and scales that can be joined. -/
theorem scales_of_faithful (hinn : 0 < inn) (hlen : 2 ≤ forms.length) (hloads : ∀ f ∈ forms, f.Loads inn)
    (h : Faithful K inn forms fun parts => fuse missing parts (parts.mapM Proj.bias)) :
    (∀ f ∈ forms, f.isFp8 = false) ∨ (∀ f ∈ forms, f.isFp8 = true) ∧ ScalesAlike forms := by
  rcases joined_of_faithful hlen hloads h with hfloat | ⟨hfp8, tail, w, s, t, hrows, hwdims, hsdims, ht⟩
  · exact .inl hfloat
  refine .inr ⟨hfp8, ?_⟩
  have hpos : ∀ f ∈ forms, 0 < f.gridRows := fun f hf => scaleForm_pos (hrows f hf).2 (hloads f hf).rows
  have hmany := one_lt_sum hlen Form.gridRows hpos
  cases tail with
  | nil =>
      left
      have hle : ∀ f ∈ forms, f.gridRows ≤ f.out := fun f hf => scaleForm_list (hrows f hf).2 (hloads f hf).rows
      rcases list_of_fp8Weight hwdims hsdims ht with hsum | hone
      · intro f hf
        rw [(hrows f hf).1, all_eq_of_sum hle (Nat.le_of_eq hsum.symm) f hf]
      · omega
  | cons c tail =>
      right
      have hgrid : ∀ f ∈ forms, tail = [] ∧ 0 < c ∧ c ∣ inn ∧ f.gridRows ∣ f.out :=
        fun f hf => scaleForm_grid (hrows f hf).2
      obtain ⟨f, hf⟩ := List.exists_mem_of_length_pos (Nat.lt_of_lt_of_le Nat.two_pos hlen)
      obtain ⟨rfl, hc, hcin, -⟩ := hgrid f hf
      have hgrids : Grids inn c forms :=
        ⟨hfp8, fun f hf => (hrows f hf).1, fun f hf => ⟨hpos f hf, (hgrid f hf).2.2.2⟩, hc, hcin⟩
      have hdvd := dvd_of_fp8Weight hwdims hsdims (one_lt_sum hlen Form.out fun f hf => (hloads f hf).rows) hmany ht
      have hheights := heights_of_faithful hinn hloads h hgrids (by omega) hdvd
      exact ⟨c, _, fun f hf => ⟨f.gridRows, (hrows f hf).1, hheights f hf⟩⟩

end Refuted

/-- Several projections of forms that load one by one are found again in their join exactly where they have
biases all or none, and one dtype, with scales by row or in blocks of one height and one width. -/
theorem fused_iff {inn : Nat} {forms : List Form} {missing : String} (hinn : 0 < inn) (hlen : 2 ≤ forms.length)
    (hloads : ∀ f ∈ forms, f.Loads inn) :
    Faithful K inn forms (fun parts => fuse missing parts (parts.mapM Proj.bias)) ↔ Fusable forms := by
  constructor
  · exact fun h => ⟨biases_of_faithful hloads h, scales_of_faithful hinn hlen hloads h⟩
  · refine faithful_of_fusable ?_ hloads
    rintro rfl
    exact absurd hlen (by decide)

/-! ## The two loads -/

/-- The load of q, k and v, and the cuts of `qkv_split`, are the parts for all weights of the forms. -/
def QkvFaithful (K : Type) [Field K] (p : String) (inn : Nat) (fq fk fv : Form) : Prop :=
  ∀ q k v : Proj K, q.form = fq → k.form = fk → v.form = fv → q.Shaped inn → k.Shaped inn → v.Shaped inn →
    ∀ (x : NdArray K) (lead : List Nat), lead ≠ [] → x.dims = lead ++ [inn] →
      ∃ l ys q' k' v', loadQkv p q k v = .ok l ∧ qkvSplit fq.out fk.out l x = .ok ys ∧ q.alone x = .ok q' ∧
        k.alone x = .ok k' ∧ v.alone x = .ok v' ∧ List.Forall₂ Same ys [q', k', v']

/-- The load of gate and up, and the halves of the forward. -/
def GateUpFaithful (K : Type) [Field K] (p : String) (inn : Nat) (fg fu : Form) : Prop :=
  ∀ gate up : Proj K, gate.form = fg → up.form = fu → gate.Shaped inn → up.Shaped inn →
    ∀ (x : NdArray K) (lead : List Nat), lead ≠ [] → x.dims = lead ++ [inn] →
      ∃ l ys g' u', loadGateUp p fg.out gate up = .ok l ∧ gateUpSplit fg.out l x = .ok ys ∧ gate.alone x = .ok g' ∧
        up.alone x = .ok u' ∧ List.Forall₂ Same ys [g', u']

theorem mapM_two {α β ε : Type} {f : α → Except ε β} {a b : α} {ys : List β} :
    [a, b].mapM f = .ok ys ↔ ∃ a' b', f a = .ok a' ∧ f b = .ok b' ∧ ys = [a', b'] := by
  rw [List.mapM_cons, List.mapM_cons, List.mapM_nil]
  constructor
  · intro h
    obtain ⟨a', ha, hrest⟩ := Traverse.bind_eq_ok.1 h
    obtain ⟨bs, hbs, heq⟩ := Traverse.bind_eq_ok.1 hrest
    obtain ⟨b', hb, heq'⟩ := Traverse.bind_eq_ok.1 hbs
    cases heq'
    cases heq
    exact ⟨a', b', ha, hb, rfl⟩
  · rintro ⟨a', b', ha, hb, rfl⟩
    rw [ha, hb]
    rfl

theorem mapM_three {α β ε : Type} {f : α → Except ε β} {a b c : α} {ys : List β} :
    [a, b, c].mapM f = .ok ys ↔ ∃ a' b' c', f a = .ok a' ∧ f b = .ok b' ∧ f c = .ok c' ∧ ys = [a', b', c'] := by
  rw [List.mapM_cons]
  constructor
  · intro h
    obtain ⟨a', ha, hrest⟩ := Traverse.bind_eq_ok.1 h
    obtain ⟨bs, hbs, heq⟩ := Traverse.bind_eq_ok.1 hrest
    obtain ⟨b', c', hb, hc, rfl⟩ := mapM_two.1 hbs
    cases heq
    exact ⟨a', b', c', ha, hb, hc, rfl⟩
  · rintro ⟨a', b', c', ha, hb, hc, rfl⟩
    rw [ha, mapM_two.2 ⟨b', c', hb, hc, rfl⟩]
    rfl

theorem qkvFaithful_iff_faithful {p : String} {inn : Nat} {fq fk fv : Form} (hkv : fv.out = fk.out) :
    QkvFaithful K p inn fq fk fv ↔ Faithful K inn [fq, fk, fv] fun parts =>
      fuse s!"missing q/k/v *_scale_inv tensors required by FP8 projections at {p}" parts (parts.mapM Proj.bias) := by
  constructor
  · rintro h parts hforms hparts x lead hlead hx
    obtain ⟨q, rest, rfl, hq, hrest⟩ := List.map_eq_cons_iff.1 hforms
    obtain ⟨k, rest, rfl, hk, hrest⟩ := List.map_eq_cons_iff.1 hrest
    obtain ⟨v, rest, rfl, hv, hrest⟩ := List.map_eq_cons_iff.1 hrest
    obtain rfl := List.map_eq_nil_iff.1 hrest
    obtain ⟨l, ys, q', k', v', hl, hys, hq', hk', hv', hall⟩ := h q k v hq hk hv (hparts q (by simp))
      (hparts k (by simp)) (hparts v (by simp)) x lead hlead hx
    obtain ⟨out, hout, hcuts⟩ := Traverse.bind_eq_ok.1 hys
    refine ⟨l, out, ys, [q', k', v'], hl, hout, ?_, mapM_three.2 ⟨q', k', v', hq', hk', hv', rfl⟩, hall⟩
    change cuts out 0 [fq.out, fk.out, fv.out] = .ok ys
    rw [hkv]
    exact hcuts
  · intro h q k v hq hk hv hqs hks hvs x lead hlead hx
    obtain ⟨l, out, ys, zs, hl, hout, hcuts, hzs, hall⟩ := h [q, k, v] (by rw [← hq, ← hk, ← hv]; rfl)
      (by simp [hqs, hks, hvs]) x lead hlead hx
    obtain ⟨q', k', v', hq', hk', hv', rfl⟩ := mapM_three.1 hzs
    refine ⟨l, ys, q', k', v', hl, Traverse.bind_eq_ok.2 ⟨out, hout, ?_⟩, hq', hk', hv', hall⟩
    change cuts out 0 [fq.out, fk.out, fv.out] = .ok ys at hcuts
    rw [hkv] at hcuts
    exact hcuts

theorem loadGateUp_eq {p : String} {inn : Nat} {gate up : Proj K} (hgate : gate.Shaped inn) (hup : up.Shaped inn)
    (hout : up.out = gate.out) (hgb : gate.form.hasBias = false) :
    loadGateUp p gate.out gate up =
      fuse s!"missing gate/up *_scale_inv tensors required by FP8 FFN at {p}" [gate, up] ([gate, up].mapM Proj.bias) := by
  have hnone : gate.bias = none := by
    change gate.bias.isSome = false at hgb
    rwa [Option.isSome_eq_false_iff, Option.isNone_iff_eq_none] at hgb
  have hmapM : [gate, up].mapM Proj.bias = none := by
    rw [List.mapM_cons, hnone]
    rfl
  unfold loadGateUp
  rw [hgate.weight, hup.weight, hout, hmapM]
  have hcheck : checkGateUp p gate.out gate.out gate.out = .ok () := if_neg (by simp)
  change (checkGateUp p gate.out gate.out gate.out >>= _) = _
  rw [hcheck]
  rfl

theorem gateUpFaithful_iff_faithful {p : String} {inn : Nat} {fg fu : Form} (hout : fu.out = fg.out)
    (hgb : fg.hasBias = false) :
    GateUpFaithful K p inn fg fu ↔ Faithful K inn [fg, fu] fun parts =>
      fuse s!"missing gate/up *_scale_inv tensors required by FP8 FFN at {p}" parts (parts.mapM Proj.bias) := by
  have hload : ∀ gate up : Proj K, gate.form = fg → up.form = fu → gate.Shaped inn → up.Shaped inn →
      loadGateUp p fg.out gate up =
        fuse s!"missing gate/up *_scale_inv tensors required by FP8 FFN at {p}" [gate, up]
          ([gate, up].mapM Proj.bias) := by
    rintro gate up rfl rfl hgs hus
    exact loadGateUp_eq hgs hus hout hgb
  constructor
  · rintro h parts hforms hparts x lead hlead hx
    obtain ⟨gate, rest, rfl, hg, hrest⟩ := List.map_eq_cons_iff.1 hforms
    obtain ⟨up, rest, rfl, hu, hrest⟩ := List.map_eq_cons_iff.1 hrest
    obtain rfl := List.map_eq_nil_iff.1 hrest
    have hgs := hparts gate (by simp)
    have hus := hparts up (by simp)
    obtain ⟨l, ys, g', u', hl, hys, hg', hu', hall⟩ := h gate up hg hu hgs hus x lead hlead hx
    obtain ⟨out, hout', hcuts⟩ := Traverse.bind_eq_ok.1 hys
    refine ⟨l, out, ys, [g', u'], ?_, hout', ?_, mapM_two.2 ⟨g', u', hg', hu', rfl⟩, hall⟩
    · exact (hload gate up hg hu hgs hus).symm.trans hl
    · change cuts out 0 [fg.out, fu.out] = .ok ys
      rw [hout]
      exact hcuts
  · intro h gate up hg hu hgs hus x lead hlead hx
    obtain ⟨l, out, ys, zs, hl, hout', hcuts, hzs, hall⟩ := h [gate, up] (by rw [← hg, ← hu]; rfl)
      (by simp [hgs, hus]) x lead hlead hx
    obtain ⟨g', u', hg', hu', rfl⟩ := mapM_two.1 hzs
    refine ⟨l, ys, g', u', (hload gate up hg hu hgs hus).trans hl, Traverse.bind_eq_ok.2 ⟨out, hout', ?_⟩, hg', hu', hall⟩
    change cuts out 0 [fg.out, fu.out] = .ok ys at hcuts
    rw [hout] at hcuts
    exact hcuts

/-- Forms that load one by one: q, k and v are found again in their join, and gate and up in theirs, exactly where
they can be joined. -/
theorem projections_fused_iff {p : String} {inn : Nat} {fq fk fv fg fu : Form} (hinn : 0 < inn) (hq : fq.Loads inn)
    (hk : fk.Loads inn) (hv : fv.Loads inn) (hkv : fv.out = fk.out) (hg : fg.Loads inn) (hu : fu.Loads inn)
    (hgu : fu.out = fg.out) (hgb : fg.hasBias = false) :
    (QkvFaithful K p inn fq fk fv ↔ Fusable [fq, fk, fv]) ∧ (GateUpFaithful K p inn fg fu ↔ Fusable [fg, fu]) := by
  constructor
  · rw [qkvFaithful_iff_faithful hkv]
    refine fused_iff hinn (by simp) ?_
    simp [hq, hk, hv]
  · rw [gateUpFaithful_iff_faithful hgu hgb]
    refine fused_iff hinn (by simp) ?_
    simp [hg, hu]

/-- Rows of a model with biases, and halves with a scale for each row. -/
def rowForm (out : Nat) (hasBias : Bool) : Form := ⟨out, true, some [out], hasBias⟩

theorem rowForm_loads {out : Nat} (hout : 0 < out) (inn : Nat) (hasBias : Bool) : (rowForm out hasBias).Loads inn :=
  ⟨hout, fun _ => ⟨[out], rfl, .inr (.inr (.inl rfl))⟩⟩

theorem projections_fused_rows :
    (QkvFaithful ℚ "model.layers.0.self_attn" 8 (rowForm 16 true) (rowForm 4 true) (rowForm 4 true) ↔
        Fusable [rowForm 16 true, rowForm 4 true, rowForm 4 true]) ∧
      (GateUpFaithful ℚ "model.layers.0.self_attn" 8 (rowForm 24 false) (rowForm 24 false) ↔
        Fusable [rowForm 24 false, rowForm 24 false]) :=
  projections_fused_iff (by decide) (rowForm_loads (by decide) 8 true) (rowForm_loads (by decide) 8 true)
    (rowForm_loads (by decide) 8 true) rfl (rowForm_loads (by decide) 8 false) (rowForm_loads (by decide) 8 false) rfl rfl

/-- An FP8 projection with one scale for all of it, as a matrix. -/
def tensorForm (out : Nat) : Form := ⟨out, true, some [1, 1], false⟩

/-- A weight of ones with one scale. -/
def scaled (out : Nat) (s : ℚ) : Proj ℚ := ⟨⟨[out, 1], fun _ => 1⟩, true, some ⟨[1, 1], fun _ => s⟩, none⟩

theorem scaled_shaped (out : Nat) (s : ℚ) : (scaled out s).Shaped 1 := ⟨rfl, fun _ h => by cases h⟩

/-- Four rows of q, one of k and one of v, with a scale for each of the three: the grid of three rows is put on
three times two rows, and the third row of q has the scale of k. -/
theorem tensor_scales_misplaced :
    ¬ QkvFaithful ℚ "model.layers.0.self_attn" 1 (tensorForm 4) (tensorForm 1) (tensorForm 1) := by
  intro h
  obtain ⟨l, ys, q', k', v', hl, hys, hq, hk, hv, hall⟩ := h (scaled 4 2) (scaled 1 3) (scaled 1 5) rfl rfl rfl
    (scaled_shaped 4 2) (scaled_shaped 1 3) (scaled_shaped 1 5) ⟨[1, 1], fun _ => 1⟩ [1] (List.cons_ne_nil 1 []) rfl
  cases hl
  cases hys
  cases hq
  obtain ⟨-, hsame⟩ := (List.forall₂_cons.1 hall).1
  have hentry := hsame [0, 2] ⟨by decide, by decide, trivial⟩
  revert hentry
  decide +kernel

end Oxydllm.Weights
